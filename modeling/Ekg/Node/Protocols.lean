import Ekg.Node.Serial

/-!
# The protocol of a monitor command

The stored configuration tells two monitors of one channel name apart by their protocol.  The
worker does not: its topic lists are keyed by the channel name alone, and `monitorChannel` opens
every channel with the default protocol of `addChannel`, which is `pva`.

`HonoursProtocols` says what a worker that respected the protocol would do.  A history is honoured
exactly when no command in it goes near the difference (`honoursProtocols_iff`): every activation
is for `pva`, and no deactivation for another protocol is about a topic that is active for `pva`.
-/

set_option autoImplicit false

namespace Ekg

open LastWrite

/-- Every channel is opened with the default protocol. -/
theorem provider_acquireAll (commands : List AquireCommand) (c : String) (ch : EpicsChannel)
    (h : (acquireAll {} commands).channel? c = some ch) : ch.provider = "pva" := by
  induction commands using List.reverseRecOn generalizing ch with
  | nil => simp [acquireAll, AcquireState.channel?, EpicsServiceManager.empty] at h
  | append_singleton commands command ih =>
    rw [acquireAll_concat, AcquireState.channel?_acquire] at h
    split at h
    · split at h
      · rcases Option.or_eq_some_iff.mp h with hold | ⟨-, hnew⟩
        · exact ih ch hold
        · cases hnew
          rfl
      · cases h
    · exact ih ch h

theorem mem_topics_concat (commands : List AquireCommand) (command : AquireCommand)
    (c d : String) :
    d ∈ (acquireAll {} (commands ++ [command])).topics c ↔
      if command.target = (c, d) then command.activate = true
      else d ∈ (acquireAll {} commands).topics c := by
  rw [acquireAll_concat]
  exact (serialInv_init.acquireAll commands).nodup.mem_topics_acquire command c d

/-- A command for one protocol leaves alone what is active for another. -/
def KeepsOtherProtocols (before : List AquireCommand) (command : AquireCommand) : Prop :=
  ∀ p d, p ≠ command.protocol → Active before (command.channelName, p, d) →
    (d ∈ (acquireAll {} (before ++ [command])).topics command.channelName ↔
      d ∈ (acquireAll {} before).topics command.channelName)

/-- The protocol of every command of a history is honoured, after every command. -/
structure HonoursProtocols (commands : List AquireCommand) : Prop where
  /-- What is active is monitored, on a channel opened with its protocol. -/
  opened : ∀ before, before <+: commands → ∀ c p d, Active before (c, p, d) →
    ∃ ch, (acquireAll {} before).channel? c = some ch ∧ ch.provider = p
  /-- No command touches what is active for another protocol. -/
  kept : ∀ before command, before ++ [command] <+: commands → KeepsOtherProtocols before command

/-- The command has nothing to do with a protocol other than `pva`, except that it may deactivate
for such a protocol a topic that is not active for `pva`. -/
structure WithinPva (before : List AquireCommand) (command : AquireCommand) : Prop where
  activates : command.activate = true → command.protocol = "pva"
  deactivates : command.activate = false → command.protocol ≠ "pva" →
    ¬ Active before (command.channelName, "pva", command.destinationTopic)

variable {commands : List AquireCommand}

theorem prefix_left_of_concat {before : List AquireCommand} {command : AquireCommand}
    (h : before ++ [command] <+: commands) : before <+: commands :=
  (List.prefix_append before [command]).trans h

/-- When no command touches what is active for another protocol, what is active is subscribed. -/
theorem mem_topics_of_active
    (h : ∀ before command, before ++ [command] <+: commands → KeepsOtherProtocols before command)
    {c p d : String} (hk : Active commands (c, p, d)) :
    d ∈ (acquireAll {} commands).topics c := by
  induction commands using List.reverseRecOn with
  | nil => exact absurd hk (not_active_nil _)
  | append_singleton commands command ih =>
    have hkeeps := h commands command (List.prefix_refl _)
    rw [active_concat] at hk
    split at hk
    · rename_i htriple
      cases htriple
      rw [mem_topics_concat]
      exact (if_pos rfl).mpr hk
    · rename_i htriple
      have hd := ih (fun before x hx ↦ h before x (hx.trans (List.prefix_append _ _))) hk
      by_cases hother : command.channelName = c ∧ p ≠ command.protocol
      · obtain ⟨rfl, hp⟩ := hother
        exact (hkeeps p d hp hk).mpr hd
      · -- the command is on another channel, or on another topic of the same protocol
        rw [mem_topics_concat, if_neg]
        · exact hd
        · rintro htarget
          cases htarget
          refine htriple ?_
          rw [not_and_not_right] at hother
          rw [hother rfl]
          rfl

theorem protocol_of_active
    (h : ∀ before command, before ++ [command] <+: commands → WithinPva before command)
    {c p d : String} (hk : Active commands (c, p, d)) : p = "pva" := by
  induction commands using List.reverseRecOn with
  | nil => exact absurd hk (not_active_nil _)
  | append_singleton commands command ih =>
    rw [active_concat] at hk
    split at hk
    · rename_i htriple
      cases htriple
      exact (h commands command (List.prefix_refl _)).activates hk
    · exact ih (fun before x hx ↦ h before x (hx.trans (List.prefix_append _ _))) hk

theorem WithinPva.keepsOtherProtocols {before : List AquireCommand} {command : AquireCommand}
    (h : WithinPva before command)
    (hbefore : ∀ {c p d : String}, Active before (c, p, d) → p = "pva") :
    KeepsOtherProtocols before command := by
  intro p d hp hk
  cases hbefore hk
  have hoff : command.activate = false := by
    rw [← Bool.not_eq_true]
    exact fun hact ↦ hp (h.activates hact).symm
  rw [mem_topics_concat, if_neg]
  intro htarget
  cases htarget
  exact h.deactivates hoff hp.symm hk

/-- **The protocol is honoured exactly in the histories that stay within `pva`.** -/
theorem honoursProtocols_iff (commands : List AquireCommand) :
    HonoursProtocols commands ↔
      ∀ before command, before ++ [command] <+: commands → WithinPva before command := by
  constructor
  · intro h before command hpre
    constructor
    · intro hact
      -- the triple is active now, and its channel can only have been opened as `pva`
      have hk : Active (before ++ [command]) command.triple := by
        rw [active_concat, if_pos rfl]
        exact hact
      obtain ⟨ch, hch, hprovider⟩ := h.opened _ hpre _ _ _ hk
      exact hprovider.symm.trans (provider_acquireAll _ _ ch hch)
    · intro hoff hp hk
      have hd := mem_topics_of_active
        (fun b x hx ↦ h.kept b x (hx.trans (prefix_left_of_concat hpre))) hk
      have hafter := (h.kept before command hpre "pva" _ hp.symm hk).mpr hd
      have htarget : command.target = (command.channelName, command.destinationTopic) := rfl
      rw [mem_topics_concat, if_pos htarget, hoff] at hafter
      cases hafter
  · intro h
    have hkept : ∀ before command, before ++ [command] <+: commands →
        KeepsOtherProtocols before command := fun before command hpre ↦
      (h before command hpre).keepsOtherProtocols fun hk ↦
        protocol_of_active (fun b x hx ↦ h b x (hx.trans (prefix_left_of_concat hpre))) hk
    refine ⟨fun before hpre c p d hk ↦ ?_, hkept⟩
    have hd := mem_topics_of_active (fun b x hx ↦ hkept b x (hx.trans hpre)) hk
    have hmon := ((serialInv_init.acquireAll before).monitored c).mpr (List.ne_nil_of_mem hd)
    obtain ⟨ch, hch⟩ := Option.isSome_iff_exists.mp (AcquireState.monitored_iff.mp hmon)
    refine ⟨ch, hch, ?_⟩
    rw [provider_acquireAll before c ch hch]
    exact (protocol_of_active (fun b x hx ↦ h b x (hx.trans hpre)) hk).symm

/-- A monitor of a channel access channel is opened as `pva`. -/
theorem not_honoursProtocols_ca :
    ¬ HonoursProtocols [⟨"ca", "channel:ramp:ramp", true, "acquire_comad_in"⟩] := by
  intro h
  obtain ⟨ch, hch, hprovider⟩ := h.opened [⟨"ca", "channel:ramp:ramp", true, "acquire_comad_in"⟩]
    (List.prefix_refl _) "channel:ramp:ramp" "ca" "acquire_comad_in" (by rw [Active]; decide)
  have hpva := provider_acquireAll _ _ ch hch
  rw [hprovider] at hpva
  exact absurd hpva (by decide)

end Ekg
