import Mathlib.Data.List.Induction
import Mathlib.Data.List.Pairwise
import Ekg.Command.MapToCommand
import Ekg.Pubsub.RDKafkaSubscriber

/-!
# The command loop

`CMDController::consume` fetches messages in batches, decodes them, hands the commands of a batch
to the handler and then commits.  A handler that throws skips the commit of its own batch.  The
offset it would have stored is not one of the batch, though: it is the position of the consumer,
and the next commit that succeeds stores that position, with the failed batch below it.

`noLoss_iff` says that this is the only way to lose a command: no message of a failed batch is ever
covered exactly when no commit succeeds after a batch that failed.
-/

set_option autoImplicit false

namespace Ekg

/-- What the decoding of a message leaves to code outside the repository. -/
structure MessageParser where
  /-- `boost::json::parse(value_str, ec).as_object()`, if it neither throws nor sets `ec`. -/
  parseObject : List UInt8 → Option Object
  /-- What `MapToCommand::parse` goes on with after it has dereferenced an end iterator. -/
  undefinedRead : Object → Option Command

/-- The body of the `for_each` of `consume`: the command that a message contributes. -/
def MessageParser.decode (parser : MessageParser) (message : SubscriberInterfaceElement) :
    Option Command :=
  if message.dataLen = 0 then none
  else
    match parser.parseObject message.data with
    | none => none
    | some commandDescription =>
      match MapToCommand.parse commandDescription with
      | .ok v => v
      | .error (.exception _) => none
      | .error (.endIterator _) => parser.undefinedRead commandDescription

/-- What one pass of the loop of `consume` meets. -/
structure Round where
  /-- The messages that `getMsg` returns. -/
  fetched : List SubscriberInterfaceElement
  /-- Whether `cmd_handler` throws, if it is called. -/
  handlerThrows : Bool
  /-- Whether the commit fails, if there is one. -/
  commitFails : Bool

/-- A batch, as the loop leaves it behind. -/
structure Batch where
  /-- The position before the batch was fetched. -/
  first : ℕ
  /-- `received_message`. -/
  messages : List SubscriberInterfaceElement
  /-- `result_vec`. -/
  resultVec : List Command
  /-- Whether the call of `cmd_handler` threw. -/
  threw : Bool

/-- The message at `offset` is one of the batch. -/
def Batch.Covers (b : Batch) (offset : ℕ) : Prop :=
  b.first ≤ offset ∧ offset < b.first + b.messages.length

/-- The state of `consume` between two passes of its loop. -/
structure CMDController where
  subscriber : RDKafkaSubscriber
  /-- The batches so far, oldest first. -/
  batches : List Batch := []

namespace CMDController

variable (parser : MessageParser)

/-- The handler is called, and throws. -/
def handlerFails (resultVec : List Command) (handlerThrows : Bool) : Bool :=
  resultVec.length != 0 && handlerThrows

/-- One pass of the loop of `CMDController::consume`. -/
def consumeOnce (s : CMDController) (round : Round) : CMDController :=
  let (subscriber, received) := s.subscriber.getMsg round.fetched
  if received.length != 0 then
    let resultVec := received.filterMap parser.decode
    let threw := handlerFails resultVec round.handlerThrows
    -- whatever the handler or the commit throws is caught here, and the loop goes on
    { subscriber := if threw then subscriber else (subscriber.commit round.commitFails).1
      batches := s.batches ++ [{ first := s.subscriber.position, messages := received,
                                 resultVec, threw }] }
  else { s with subscriber }

/-- `CMDController::consume`: the passes one after the other. -/
def consume (s : CMDController) (rounds : List Round) : CMDController :=
  rounds.foldl (consumeOnce parser) s

/-- The stored offset covers no message of a batch whose handler threw, unless the message was
delivered again later and handled. -/
def NoLoss (s : CMDController) : Prop :=
  ∀ before b after, s.batches = before ++ b :: after → b.threw = true →
    ∀ offset, b.Covers offset → offset < s.subscriber.committed →
      ∃ later ∈ after, later.Covers offset ∧ later.threw = false

end CMDController

/-- The handler is called in this pass, and throws. -/
def Round.throws (parser : MessageParser) (r : Round) : Bool :=
  CMDController.handlerFails (r.fetched.filterMap parser.decode) r.handlerThrows

/-- The pass fetches something, and ends with a commit that succeeds. -/
def Round.commits (parser : MessageParser) (r : Round) : Bool :=
  r.fetched.length != 0 && !r.throws parser && !r.commitFails

/-- The batch that the pass leaves behind. -/
def Round.batch (parser : MessageParser) (first : ℕ) (r : Round) : Batch where
  first := first
  messages := r.fetched
  resultVec := r.fetched.filterMap parser.decode
  threw := r.throws parser

section Round

variable {parser : MessageParser} {r : Round}

theorem Round.fetched_ne_nil_of_throws (h : r.throws parser = true) : r.fetched ≠ [] := by
  intro hnil
  simp [throws, CMDController.handlerFails, hnil] at h

theorem Round.fetched_ne_nil_of_commits (h : r.commits parser = true) : r.fetched ≠ [] := by
  intro hnil
  simp [commits, hnil] at h

theorem Round.not_throws_of_commits (h : r.commits parser = true) : r.throws parser = false := by
  simp only [commits, Bool.and_eq_true, Bool.not_eq_true'] at h
  exact h.1.2

end Round

namespace CMDController

variable {parser : MessageParser} (s : CMDController) (r : Round)

/-! ## What one pass does -/

/-- A pass that fetches nothing does nothing. -/
theorem consumeOnce_of_fetched_eq_nil (h : r.fetched = []) : s.consumeOnce parser r = s := by
  rw [consumeOnce, h]
  rfl

/-- A pass that fetches something is one batch. -/
theorem consumeOnce_of_fetched_ne_nil (h : r.fetched ≠ []) :
    s.consumeOnce parser r =
      { subscriber := if r.throws parser then (s.subscriber.getMsg r.fetched).1
          else ((s.subscriber.getMsg r.fetched).1.commit r.commitFails).1
        batches := s.batches ++ [r.batch parser s.subscriber.position] } := by
  have hlen : (r.fetched.length != 0) = true := by simpa using h
  exact if_pos hlen

theorem position_consumeOnce :
    (s.consumeOnce parser r).subscriber.position =
      s.subscriber.position + r.fetched.length := by
  by_cases h : r.fetched = []
  · rw [consumeOnce_of_fetched_eq_nil s r h, h]
    rfl
  · rw [consumeOnce_of_fetched_ne_nil s r h]
    cases r.throws parser with
    | true => rfl
    | false => exact RDKafkaSubscriber.commit_fst_position _ _ _

theorem committed_consumeOnce :
    (s.consumeOnce parser r).subscriber.committed =
      if r.commits parser then s.subscriber.position + r.fetched.length
      else s.subscriber.committed := by
  by_cases h : r.fetched = []
  · rw [consumeOnce_of_fetched_eq_nil s r h, if_neg]
    exact fun hc ↦ Round.fetched_ne_nil_of_commits hc h
  · have hlen : (r.fetched.length != 0) = true := by simpa using h
    rw [consumeOnce_of_fetched_ne_nil s r h, Round.commits, hlen]
    cases r.throws parser with
    | true => rfl
    | false =>
      refine (RDKafkaSubscriber.commit_fst_committed _ _ _).trans ?_
      cases r.commitFails <;> rfl

/-- The failed batches after a pass are those from before, and its own if it failed. -/
theorem threw_consumeOnce {b : Batch} :
    (b ∈ (s.consumeOnce parser r).batches ∧ b.threw = true) ↔
      (b ∈ s.batches ∧ b.threw = true) ∨
        (r.throws parser = true ∧ b = r.batch parser s.subscriber.position) := by
  by_cases h : r.fetched = []
  · rw [consumeOnce_of_fetched_eq_nil s r h]
    exact ⟨Or.inl, fun hb ↦ hb.resolve_right fun hr ↦ Round.fetched_ne_nil_of_throws hr.1 h⟩
  · rw [consumeOnce_of_fetched_ne_nil s r h, List.mem_append, List.mem_singleton, or_and_right]
    refine or_congr_right ⟨?_, ?_⟩
    · rintro ⟨rfl, hb⟩
      exact ⟨hb, rfl⟩
    · rintro ⟨hr, rfl⟩
      exact ⟨rfl, hr⟩

/-! ## Runs -/

/-- The batches of a run lie one behind the other, below the position. -/
structure Inv (s : CMDController) : Prop where
  within : ∀ b ∈ s.batches, b.first + b.messages.length ≤ s.subscriber.position
  ordered : s.batches.Pairwise fun a b ↦ a.first + a.messages.length ≤ b.first
  nonempty : ∀ b ∈ s.batches, 0 < b.messages.length

theorem inv_start (subscriber : RDKafkaSubscriber) : Inv { subscriber } :=
  ⟨by simp, List.Pairwise.nil, by simp⟩

variable {s}

theorem Inv.consumeOnce (h : Inv s) (r : Round) : Inv (s.consumeOnce parser r) := by
  by_cases hnil : r.fetched = []
  · rwa [consumeOnce_of_fetched_eq_nil s r hnil]
  have hlast : ∀ {P : Batch → Prop}, (∀ b ∈ s.batches, P b) →
      P (r.batch parser s.subscriber.position) → ∀ b ∈ (s.consumeOnce parser r).batches, P b := by
    intro P hold hnew b hb
    rw [consumeOnce_of_fetched_ne_nil s r hnil] at hb
    rcases List.mem_append.mp hb with hb | hb
    · exact hold b hb
    · exact List.mem_singleton.mp hb ▸ hnew
  refine ⟨?_, ?_, ?_⟩
  · rw [position_consumeOnce]
    exact hlast (fun b hb ↦ Nat.le_add_right_of_le (h.within b hb)) (Nat.le_refl _)
  · rw [consumeOnce_of_fetched_ne_nil s r hnil]
    exact List.pairwise_append.mpr ⟨h.ordered, List.pairwise_singleton _ _, fun a ha b hb ↦
      List.mem_singleton.mp hb ▸ h.within a ha⟩
  · exact hlast h.nonempty (List.length_pos_of_ne_nil hnil)

theorem Inv.consume (h : Inv s) (rounds : List Round) : Inv (s.consume parser rounds) := by
  induction rounds generalizing s with
  | nil => exact h
  | cons r rounds ih => exact ih (h.consumeOnce r)

/-- The consumer never goes back, so a failed batch is lost as soon as its first message is
covered. -/
theorem Inv.noLoss_iff_uncovered (h : Inv s) :
    NoLoss s ↔ ∀ b ∈ s.batches, b.threw = true → s.subscriber.committed ≤ b.first := by
  constructor
  · intro hno b hb hthrew
    by_contra hcov
    obtain ⟨before, after, hsplit⟩ := List.append_of_mem hb
    have hfirst : b.Covers b.first := ⟨Nat.le_refl _, Nat.lt_add_of_pos_right (h.nonempty b hb)⟩
    obtain ⟨later, hlater, hcovers, -⟩ :=
      hno before b after hsplit hthrew b.first hfirst (Nat.lt_of_not_le hcov)
    -- a later batch starts behind the end of this one
    have hord := h.ordered
    rw [hsplit, List.pairwise_append, List.pairwise_cons] at hord
    have := hord.2.1.1 later hlater
    have := hcovers.1
    have := h.nonempty b hb
    omega
  · intro hle before b after hsplit hthrew offset hcovers hcommitted
    have hb : b ∈ s.batches := hsplit ▸ by simp
    have := hle b hb hthrew
    have := hcovers.1
    omega

theorem exists_threw_consume (subscriber : RDKafkaSubscriber) (rounds : List Round) :
    (∃ b ∈ (consume parser { subscriber } rounds).batches, b.threw = true) ↔
      ∃ r ∈ rounds, r.throws parser = true := by
  induction rounds using List.reverseRecOn with
  | nil => simp [consume]
  | append_singleton rounds r ih =>
    rw [consume, List.foldl_append]
    change (∃ b, b ∈ (consumeOnce parser (consume parser _ rounds) r).batches ∧ _) ↔ _
    simp only [threw_consumeOnce, exists_or, ih, List.mem_append, or_and_right,
      List.mem_singleton, exists_eq_left, exists_and_left, exists_eq, and_true]

theorem consume_concat (rounds : List Round) (r : Round) :
    s.consume parser (rounds ++ [r]) = (s.consume parser rounds).consumeOnce parser r := by
  rw [consume, List.foldl_append]
  rfl

/-- One more pass loses nothing if it does not commit, or if nothing failed before it. -/
theorem noLoss_consume_concat {subscriber : RDKafkaSubscriber} {rounds : List Round} (r : Round)
    (h : NoLoss (consume parser { subscriber } rounds)) :
    NoLoss (consume parser { subscriber } (rounds ++ [r])) ↔
      ∀ a ∈ rounds, a.throws parser = true → ¬ r.commits parser = true := by
  have hinv : Inv (consume parser { subscriber } rounds) := (inv_start subscriber).consume rounds
  rw [hinv.noLoss_iff_uncovered] at h
  rw [consume_concat, (hinv.consumeOnce r).noLoss_iff_uncovered, committed_consumeOnce]
  split
  · rename_i hcommits
    constructor
    · intro hle a ha hthrows
      -- the batch of `a` ends below the position that this commit stores
      obtain ⟨b, hb, hthrew⟩ := (exists_threw_consume subscriber rounds).mpr ⟨a, ha, hthrows⟩
      obtain ⟨hb', -⟩ := (threw_consumeOnce _ r).mpr (Or.inl ⟨hb, hthrew⟩)
      have := hle b hb' hthrew
      have := hinv.within b hb
      have := hinv.nonempty b hb
      omega
    · intro hnone b hb hthrew
      exfalso
      rcases (threw_consumeOnce _ r).mp ⟨hb, hthrew⟩ with hold | ⟨hr, -⟩
      · obtain ⟨a, ha, hthrows⟩ := (exists_threw_consume subscriber rounds).mp ⟨b, hold⟩
        exact hnone a ha hthrows hcommits
      · rw [Round.not_throws_of_commits hcommits] at hr
        cases hr
  · rename_i hcommits
    refine ⟨fun _ _ _ _ ↦ hcommits, fun _ b hb hthrew ↦ ?_⟩
    rcases (threw_consumeOnce _ r).mp ⟨hb, hthrew⟩ with ⟨hold, -⟩ | ⟨-, rfl⟩
    · exact h b hold hthrew
    · exact RDKafkaSubscriber.committed_le _

/-- **A failed batch is lost by the next commit that succeeds, and by nothing else.** -/
theorem noLoss_iff (parser : MessageParser) (subscriber : RDKafkaSubscriber)
    (rounds : List Round) :
    (∀ done, done <+: rounds → NoLoss (consume parser { subscriber } done)) ↔
      rounds.Pairwise fun a b ↦ a.throws parser = true → ¬ b.commits parser = true := by
  induction rounds using List.reverseRecOn with
  | nil =>
    refine iff_of_true (fun done hdone ↦ ?_) List.Pairwise.nil
    rw [List.prefix_nil.mp hdone]
    exact (inv_start subscriber).noLoss_iff_uncovered.mpr fun b hb ↦ by cases hb
  | append_singleton rounds r ih =>
    simp only [List.prefix_concat_iff, or_imp, forall_and, forall_eq, ih, List.pairwise_append,
      List.pairwise_singleton, List.mem_singleton, true_and]
    rw [and_comm]
    refine and_congr_right fun hrounds ↦ ?_
    exact noLoss_consume_concat r (ih.mpr hrounds rounds (List.prefix_refl _))

/-- A command to get a channel, as it is on the bus. -/
def getRampText : List UInt8 :=
  ("\x7b\"command\":\"get\",\"protocol\":\"pva\"," ++
    "\"channel_name\":\"ramp\",\"dest_topic\":\"out\"\x7d").toUTF8.data.toList

/-- The JSON parser, as far as it is asked about `getRampText`. -/
def rampParser : MessageParser where
  parseObject data :=
    if data = getRampText then
      some ⟨[(keyCommand, .string "get"), (keyProtocol, .string "pva"),
        (keyChannelName, .string "ramp"), (keyDestTopic, .string "out")], by decide⟩
    else none
  undefinedRead _ := none

/-- Two batches of one command each: the handler throws on the first, and the second is fine. -/
def failedThenCommitted : List Round :=
  [⟨[⟨"default-key", getRampText⟩], true, false⟩, ⟨[⟨"default-key", getRampText⟩], false, false⟩]

/-- The commit after the good batch covers the one before it. -/
theorem not_noLoss_failedThenCommitted :
    ¬ ∀ done, done <+: failedThenCommitted →
      NoLoss (consume rampParser { subscriber := .construct } done) := by
  intro h
  have hinv : Inv (consume rampParser { subscriber := .construct } failedThenCommitted) :=
    (inv_start .construct).consume _
  have hle := hinv.noLoss_iff_uncovered.mp (h _ (List.prefix_refl _))
    (Round.batch rampParser 0 ⟨[⟨"default-key", getRampText⟩], true, false⟩)
    List.mem_cons_self (by decide)
  exact absurd hle (by decide)

end CMDController

end Ekg
