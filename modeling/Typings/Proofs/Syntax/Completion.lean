import Typings.Proofs.Syntax.Joining
import Typings.Proofs.Syntax.Samples
/-!
# Every stack can be completed

However deep a stack is, there are tokens behind which it is a whole file.  A dot in front of what
was read last is completed by writing out what stands behind it, without leaving out a separator,
and then by what completes the phrase of its production further down.

* `exists_separated`             a production can go on without leaving out a separator;
* `Parser.OnPath.sibling`        what begins alike stands in the same states;
* `Parser.Completable`           what is read of a symbol behind a stack can be completed;
* `Parser.exists_completion`     every stack can be completed.
-/

namespace Typings

/-- separators come last in a rule, so what a choice has written can go on without leaving one out -/
theorem Slot.exists_separatedChoice : ∀ r ∈ rules, ∀ symbols ∈ choices r.slots,
    ∃ more ∈ separatedChoices r.slots, symbols <+: more := by
  decide +kernel

theorem exists_separated {p : Production} (mem : p ∈ productions) :
    ∃ q ∈ separated, q.lhs = p.lhs ∧ p.rhs <+: q.rhs := by
  obtain ⟨r, hr, lhs, chosen⟩ := (mem_productions p).mp mem
  obtain ⟨more, kept, front⟩ :=
    Slot.exists_separatedChoice r hr p.rhs ((Slot.mem_choices _ _).mpr chosen)
  exact ⟨⟨p.lhs, more⟩, (mem_separated _).mpr ⟨r, hr, lhs, Slot.mem_separatedChoices kept⟩, rfl, front⟩

namespace Parser
open Automaton Typings.Derivation

/-! ## Productions that begin alike -/

/-- with an item, a state has those of all productions of the phrase that begin alike -/
theorem OnPath.sibling {stack : List Frame} {first i : Nat} {p q : Production} (h : OnPath stack)
    (item : Item (top stack) first p i) (mem : q ∈ productions) (lhs : q.lhs = p.lhs)
    (alike : q.rhs.take i = p.rhs.take i) : ∃ g, Item (top stack) g q i := by
  induction i generalizing stack with
  | zero =>
    have entered : ∀ {f j : Nat} {r : Production}, Item (top stack) f r j →
        r.rhs[j]? = some (.nonterminal p.lhs) → ∃ g, Item (top stack) g q 0 := by
      intro f j r dot hj
      rw [← lhs] at hj
      exact dot.enter hj mem
    cases h with
    | nil =>
      rcases item.initial with isFile | ⟨f, r, j, dot, hj⟩
      · exact item_of_file (lhs.trans isFile) mem
      · exact entered dot hj
    | cons path step =>
      obtain ⟨f, r, j, dot, hj⟩ := item.reached step
      exact entered dot hj
  | succ i ih =>
    cases h with
    | nil => exact absurd item Item.not_initial
    | cons path step =>
      obtain ⟨before, hi⟩ := item.back step
      have alike' : q.rhs.take i = p.rhs.take i := by
        have := congrArg (List.take i) alike
        rwa [List.take_take, List.take_take, Nat.min_eq_left (Nat.le_succ i)] at this
      obtain ⟨g, here⟩ := ih path before alike'
      have hi' : q.rhs[i]? = p.rhs[i]? := by
        have := congrArg (fun l => l[i]?) alike
        simpa only [List.getElem?_take, Nat.lt_succ_self, if_true] using this
      exact ⟨g, here.advance (hi'.trans hi) step⟩

/-! ## Completions -/

/-- the class of the first token of a row, or the end of the text -/
def kindAhead (tokens : List Token) : Terminal := (tokens.head?.map (·.kind)).getD .END

theorem kindAhead_append (ds : List Derivation) (tokens : List Token) :
    kindAhead (Derivation.tokensOf ds ++ tokens) = firstKind ds (kindAhead tokens) := by
  unfold kindAhead firstKind
  cases Derivation.tokensOf ds with
  | nil => rfl
  | cons t ts => rfl

/-- the tokens of a stack, then the given ones, then some more are those of a file; the states in front
of the last ones are given -/
def CompletedBy (stack : List Frame) (read tokens : List Token) (states : List Nat) : Prop :=
  ∃ (e : Derivation) (more : List Nat), e.Leads (states ++ more) ∧
    e.tokens = Parser.tokensOf stack ++ read ++ tokens

/-- whatever is read of a symbol behind a stack, some tokens behind it complete a file -/
def Completable (stack : List Frame) (s : Symbol) : Prop :=
  ∃ (next : Nat) (tokens : List Token), next? (top stack) s = some next ∧
    (∀ t ∈ tokens, t.IsSample) ∧
    (∀ n, s = .nonterminal n → (Lookahead.ahead n).contains (kindAhead tokens) = true) ∧
    ∀ {d : Derivation} {before states : List Nat}, d.root = s →
      Course (top stack) d (kindAhead tokens) states next →
      Stacked stack (firstKind [d] (kindAhead tokens)) before →
        CompletedBy stack d.tokens tokens (before ++ states)

/-- whatever is read of all parts of a production behind a stack, the tokens complete a file -/
def Closes (stack : List Frame) (q : Production) (tokens : List Token) : Prop :=
  (Lookahead.ahead q.lhs).contains (kindAhead tokens) = true ∧
    ∀ {parts : List Derivation} {before states : List Nat} {last first : Nat},
      parts.map root = q.rhs → Item last first q q.rhs.length →
      CourseAll (top stack) parts (kindAhead tokens) states last →
      Stacked stack (firstKind parts (kindAhead tokens)) before →
        CompletedBy stack (Derivation.tokensOf parts) tokens (before ++ states)

/-- a production of files needs no tokens behind it -/
theorem closes_file {q : Production} (kept : q ∈ separated) (isFile : q.lhs = .file) :
    Closes [] q [] := by
  refine ⟨?_, ?_⟩
  · rw [isFile]
    exact Lookahead.ahead_closed.1
  · intro parts before states last first roots _ row stacked
    cases stacked
    refine ⟨.node q parts, [], ?_, (List.append_nil _).symm⟩
    rw [List.append_nil]
    exact .node (mem_productions_of_separated kept) isFile roots row

/-- behind a production that leaves out no separator comes what completes its phrase -/
theorem closes_of_completable {stack : List Frame} {q : Production} (kept : q ∈ separated)
    (h : Completable stack (.nonterminal q.lhs)) :
    ∃ tokens, (∀ t ∈ tokens, t.IsSample) ∧ Closes stack q tokens := by
  obtain ⟨next, tokens, step, sampled, ahead, done⟩ := h
  have ahead := ahead q.lhs rfl
  refine ⟨tokens, sampled, ahead, ?_⟩
  intro parts before states last first roots atEnd row stacked
  have unread := atEnd.not_reads (.inl kept) ahead
  rw [← firstKind_node q] at stacked
  exact done rfl (.node (mem_productions_of_separated kept) roots row unread step) stacked

/-- a production with a symbol behind its dot can be replaced by one that begins alike and leaves out
no separator -/
theorem exists_separated_behind {p : Production} {i : Nat} {s : Symbol} (mem : p ∈ productions)
    (hi : p.rhs[i]? = some s) : ∃ q ∈ separated, q.lhs = p.lhs ∧ q.rhs.take i = p.rhs.take i ∧
      q.rhs[i]? = some s := by
  obtain ⟨q, kept, lhs, more, whole⟩ := exists_separated mem
  obtain ⟨lt, _⟩ := List.getElem?_eq_some_iff.mp hi
  refine ⟨q, kept, lhs, ?_, ?_⟩
  · rw [← whole, List.take_append_of_le_length (Nat.le_of_lt lt)]
  · rw [← whole, List.getElem?_append_left lt, hi]

/-- a symbol behind a dot can be completed, if the phrase of the production can, or is a file -/
theorem completable_part {stack : List Frame} {first i : Nat} {p : Production} {s : Symbol}
    (path : OnPath stack) (item : Item (top stack) first p i) (hi : p.rhs[i]? = some s)
    (deeper : p.lhs = .file ∨ Completable (stack.drop i) (.nonterminal p.lhs)) :
    Completable stack s := by
  obtain ⟨q, kept, lhs, alike, hi'⟩ := exists_separated_behind item.mem_productions hi
  have mem := mem_productions_of_separated kept
  obtain ⟨g, item'⟩ := path.sibling item mem lhs alike
  obtain ⟨_, same, start⟩ := path.trace item'
  obtain ⟨next, step⟩ := item'.next hi'
  -- what stands behind the dot is written out
  have noEnd : Symbol.terminal .END ∉ q.rhs.drop (i + 1) := fun isEnd =>
    end_not_mem_rhs q mem (List.mem_of_mem_drop isEnd)
  obtain ⟨ds, roots, valid, written, sampled⟩ := exists_samples noEnd
  have rest : q.rhs.drop i = s :: ds.map root := by
    obtain ⟨lt, e⟩ := List.getElem?_eq_some_iff.mp hi'
    rw [roots, ← e, List.getElem_cons_drop]
  -- and then what completes the phrase below
  obtain ⟨tokens, sampled', ahead, done⟩ :
      ∃ tokens, (∀ t ∈ tokens, t.IsSample) ∧ Closes (stack.drop i) q tokens := by
    rcases deeper with isFile | completable
    · rw [← lhs] at isFile
      rw [(path.drop i).eq_nil_of_file start isFile]
      exact ⟨[], fun t ht => absurd ht List.not_mem_nil, closes_file kept isFile⟩
    · rw [← lhs] at completable
      exact closes_of_completable kept completable
  refine ⟨next, Derivation.tokensOf ds ++ tokens, step, fun t ht => ?_, fun n isN => ?_, ?_⟩
  · exact (List.mem_append.mp ht).elim (sampled t) (sampled' t)
  · rw [kindAhead_append]
    exact ahead_of_part mem (isN ▸ rest) valid (.inl kept) ahead
  · intro d before states isRoot course stacked
    rw [kindAhead_append] at course stacked
    obtain ⟨deepStates, frontStates, rfl, below, front⟩ := stacked.take i
    have ended := (written.parted _).ended valid mem roots.symm (.inl kept) ahead
    obtain ⟨restStates, last, further, atEnd⟩ := courseAll_of_ended valid ended (item'.advance hi' step) roots.symm
    rw [← firstKind_cons] at below front
    have row := front.append (.cons course further)
    rw [← firstKind_append] at below
    have whole := (roots_of_take i stack).trans same
    obtain ⟨e, more, leads, tokensE⟩ := done (by
      rw [List.map_append, whole, List.map_cons, isRoot, ← rest, List.take_append_drop]) atEnd row below
    refine ⟨e, restStates ++ more, ?_, ?_⟩
    · simpa only [List.append_assoc] using leads
    · rw [tokensE, Derivation.tokensOf_append, Derivation.tokensOf]
      have kept := tokensOf_append (stack.take i) (stack.drop i)
      rw [List.take_append_drop] at kept
      rw [kept]
      simp only [List.append_assoc]
      rfl

/-- in every state of a stack, the phrases of all items can be completed -/
theorem completable_of_item {stack : List Frame} (path : OnPath stack) :
    ∀ {first i : Nat} {p : Production}, Item (top stack) first p i →
      p.lhs = .file ∨ Completable (stack.drop i) (.nonterminal p.lhs) := by
  generalize len : stack.length = n
  induction n using Nat.strong_induction_on generalizing stack with
  | _ n ih =>
    intro first i p item
    obtain ⟨k, hk, has⟩ := item
    refine ItemSet.closure_induction (Q := fun _ p i =>
      p.lhs = .file ∨ Completable (stack.drop i) (.nonterminal p.lhs)) (fun f p i has => ?_)
      (fun f p i g q dot deeper hi mem => .inr ?_) has
    · -- an item of the kernel has its phrase further down
      have item : Item (top stack) f p i := ⟨k, hk, ItemSet.has_closure has⟩
      obtain ⟨deep, _, start⟩ := path.trace item
      cases i with
      | zero =>
        cases path with
        | nil =>
          have first : kernels[0]? = some k := hk
          rw [kernels_zero] at first
          cases first
          exact .inl (ItemSet.has_startsOf has).2
        | cons path step =>
          obtain ⟨k₀, _, rfl⟩ := kernel_of_next step hk
          exact absurd has ItemSet.not_has_advance_zero
      | succ i =>
        have shorter : (stack.drop (i + 1)).length < n := by
          rw [List.length_drop, len]
          omega
        have below := ih _ shorter (path.drop (i + 1)) rfl start
        rwa [List.drop_zero] at below
    · exact completable_part path ⟨k, hk, dot⟩ hi deeper

/-- behind every stack there are tokens that complete a file -/
theorem exists_completion {stack : List Frame} {states : List Nat} (path : OnPath stack)
    (stacked : ∀ ahead, Stacked stack ahead states) :
    ∃ tokens, (∀ t ∈ tokens, t.IsSample) ∧ CompletedBy stack [] tokens states := by
  cases path with
  | nil =>
    cases stacked .END
    refine ⟨[], fun t ht => absurd ht List.not_mem_nil, .node ⟨.file, []⟩ [], [], ?_, rfl⟩
    exact .node (by with_unfolding_all decide) rfl rfl .nil
  | @cons f below path step =>
    obtain ⟨_, p, i, dot, hi⟩ := exists_item_of_next step
    obtain ⟨next, tokens, step', sampled, _, done⟩ :=
      completable_part path dot hi (completable_of_item path dot)
    rw [step] at step'
    cases step'
    cases stacked (kindAhead tokens) with
    | @cons _ _ _ states more deeper here =>
      obtain ⟨e, last, leads, tokensE⟩ := done rfl here deeper
      refine ⟨tokens, sampled, e, last, leads, ?_⟩
      rw [tokensE, tokensOf_cons, List.append_nil]

end Parser

end Typings
