import Typings.Proofs.Report.Spacing
/-!
# A derivation of each symbol

Every phrase can be written out without leaving out a separator.  The derivations are computed from
the grammar: a phrase has one as soon as the parts of one of its productions have one.

* `Token.sample`                 a token of each class;
* `samples`                      a derivation of each phrase;
* `Derivation.exists_samples`    a row of symbols can be written out.
-/

namespace Typings

/-! ## Tokens -/

/-- a text of a class: the spelling, if there is only one -/
def Terminal.sample : Terminal → Text
  | .NAME => "x"
  | .STRING => "''"
  | .NUMERAL => "0"
  | t => Text.ofString (t.spelling?.getD "")

namespace Token

/-- a token of a class -/
def sample (kind : Terminal) : Token := ⟨kind, kind.sample, .start⟩

/-- a token other than the end of the text that is the sample of its class -/
def IsSample (t : Token) : Prop := t = sample t.kind ∧ t.kind ≠ .END

instance (t : Token) : Decidable t.IsSample := inferInstanceAs (Decidable (_ ∧ _))

theorem sample_matches {kind : Terminal} (ne : kind ≠ .END) : kind.Matches kind.sample [] := by
  have zero : Decimals (.scalar '0' :: []) [] :=
    .whole (List.cons_ne_nil _ _) (by decide) Text.not_begins_nil fun _ e => nomatch e
  cases kind with
  | END => exact absurd rfl ne
  | NAME => exact .name (by decide) Text.not_begins_nil
  | STRING => exact .string (.inr rfl) .nil
  | NUMERAL => exact .decimal zero fun _ _ _ e => nomatch e
  | _ => exact .spelled rfl

/-- the sample of a name is no keyword -/
theorem sample_plain : ∀ u ∈ Terminal.all, u.isWord Terminal.NAME.sample = false := by decide

theorem IsSample.matches {t : Token} (h : t.IsSample) : t.kind.Matches t.text [] := by
  rw [h.1]
  exact sample_matches h.2

end Token

/-! ## Phrases -/

/-- derivations of a row of symbols, as far as those of its phrases are known -/
def Derivation.samplesOf? (known : List Derivation) : List Symbol → Option (List Derivation)
  | [] => some []
  | .terminal t :: rest => (samplesOf? known rest).map (.leaf (Token.sample t) :: ·)
  | .nonterminal n :: rest =>
    (known.find? fun d => d.root == .nonterminal n).bind fun d => (samplesOf? known rest).map (d :: ·)

/-- the known derivations, and one of the phrase of a production if it is new -/
def Derivation.addSample (p : Production) (known : List Derivation) : List Derivation :=
  if known.any fun d => d.root == .nonterminal p.lhs then known
  else match samplesOf? known p.rhs with
    | none => known
    | some parts => .node p parts :: known

/-- a derivation of each phrase: two rounds through the productions, the last of them first, since a
phrase stands before its parts in the grammar -/
@[irreducible] def samples : List Derivation :=
  separated.foldr Derivation.addSample (separated.foldr Derivation.addSample [])

namespace Derivation

/-- a derivation that leaves out no separator, with samples for its tokens -/
structure IsSample (d : Derivation) : Prop where
  valid : d.Valid
  separated : d.Separated
  tokens : ∀ t ∈ d.tokens, t.IsSample

theorem leaf_isSample {t : Terminal} (ne : t ≠ .END) : (leaf (Token.sample t)).IsSample where
  valid := .leaf _
  separated := .leaf _
  tokens := List.forall_mem_singleton.mpr ⟨rfl, ne⟩

/-- a row of samples -/
theorem row_of_samples {ds : List Derivation} (h : ∀ d ∈ ds, d.IsSample) :
    AllValid ds ∧ AllSeparated ds ∧ ∀ t ∈ tokensOf ds, t.IsSample := by
  induction ds with
  | nil => exact ⟨.nil, .nil, fun _ h => absurd h List.not_mem_nil⟩
  | cons d ds ih =>
    obtain ⟨here, further⟩ := List.forall_mem_cons.mp h
    obtain ⟨valid, separated, tokens⟩ := ih further
    exact ⟨.cons here.valid valid, .cons here.separated separated,
      List.forall_mem_append.mpr ⟨here.tokens, tokens⟩⟩

theorem node_isSample {p : Production} {parts : List Derivation} (kept : p ∈ separated)
    (roots : parts.map root = p.rhs) (h : ∀ d ∈ parts, d.IsSample) : (node p parts).IsSample := by
  obtain ⟨valid, separated, tokens⟩ := row_of_samples h
  exact ⟨.node (mem_productions_of_separated kept) roots valid, .node kept separated, tokens⟩

/-! ### The known samples -/

section
variable {known : List Derivation} (good : ∀ d ∈ known, d.IsSample)
include good

theorem samplesOf?_spec {symbols : List Symbol} (ne : Symbol.terminal .END ∉ symbols)
    {ds : List Derivation} (h : samplesOf? known symbols = some ds) :
    ds.map root = symbols ∧ ∀ d ∈ ds, d.IsSample := by
  induction symbols generalizing ds with
  | nil =>
    cases h
    exact ⟨rfl, fun _ h => absurd h List.not_mem_nil⟩
  | cons s rest ih =>
    obtain ⟨here, further⟩ := not_or.mp (mt List.mem_cons.mpr ne)
    cases s with
    | terminal t =>
      obtain ⟨es, found, rfl⟩ := Option.map_eq_some_iff.mp h
      obtain ⟨roots, samples⟩ := ih further found
      have isSample := leaf_isSample fun isEnd => here (congrArg Symbol.terminal isEnd).symm
      exact ⟨congrArg (Symbol.terminal t :: ·) roots, List.forall_mem_cons.mpr ⟨isSample, samples⟩⟩
    | nonterminal n =>
      obtain ⟨d, first, h⟩ := Option.bind_eq_some_iff.mp h
      obtain ⟨es, found, rfl⟩ := Option.map_eq_some_iff.mp h
      obtain ⟨roots, samples⟩ := ih further found
      have root : d.root = .nonterminal n := by simpa using List.find?_some first
      refine ⟨by rw [List.map_cons, root, roots], List.forall_mem_cons.mpr ⟨?_, samples⟩⟩
      exact good d (List.mem_of_find?_eq_some first)

theorem addSample_isSample {p : Production} (kept : p ∈ separated) :
    ∀ d ∈ addSample p known, d.IsSample := by
  rw [addSample]
  split
  · exact good
  · have ne := Automaton.end_not_mem_rhs p (mem_productions_of_separated kept)
    cases h : samplesOf? known p.rhs with
    | none => exact good
    | some parts =>
      obtain ⟨roots, samples⟩ := samplesOf?_spec good ne h
      exact List.forall_mem_cons.mpr ⟨node_isSample kept roots samples, good⟩

/-- a round through the productions -/
theorem round_isSample {ps : List Production} (kept : ∀ p ∈ ps, p ∈ separated) :
    ∀ d ∈ ps.foldr addSample known, d.IsSample := by
  induction ps with
  | nil => exact good
  | cons p ps ih =>
    obtain ⟨here, further⟩ := List.forall_mem_cons.mp kept
    exact addSample_isSample (ih further) here

end

theorem samples_isSample : ∀ d ∈ samples, d.IsSample := by
  rw [samples]
  refine round_isSample (round_isSample ?_ fun _ h => h) fun _ h => h
  exact fun _ h => absurd h List.not_mem_nil

/-- two rounds are enough -/
theorem exists_mem_samples : ∀ n ∈ Nonterminal.all, ∃ d ∈ samples, d.root = .nonterminal n := by
  decide +kernel

/-! ### Symbols -/

/-- a symbol other than the end of the text can be written out -/
theorem exists_sample {s : Symbol} (ne : s ≠ .terminal .END) : ∃ d : Derivation, d.root = s ∧ d.IsSample := by
  cases s with
  | terminal t =>
    exact ⟨_, rfl, leaf_isSample fun isEnd => ne (congrArg Symbol.terminal isEnd)⟩
  | nonterminal n =>
    obtain ⟨d, mem, root⟩ := exists_mem_samples n n.mem_all
    exact ⟨d, root, samples_isSample d mem⟩

/-- so can a row of symbols -/
theorem exists_samples {symbols : List Symbol} (ne : Symbol.terminal .END ∉ symbols) :
    ∃ ds : List Derivation, ds.map root = symbols ∧ AllValid ds ∧ AllSeparated ds ∧
      ∀ t ∈ tokensOf ds, t.IsSample := by
  suffices h : ∃ ds : List Derivation, ds.map root = symbols ∧ ∀ d ∈ ds, d.IsSample by
    obtain ⟨ds, roots, samples⟩ := h
    exact ⟨ds, roots, row_of_samples samples⟩
  induction symbols with
  | nil => exact ⟨[], rfl, fun _ h => absurd h List.not_mem_nil⟩
  | cons s rest ih =>
    obtain ⟨here, further⟩ := not_or.mp (mt List.mem_cons.mpr ne)
    obtain ⟨d, root, sample⟩ := exists_sample (Ne.symm here)
    obtain ⟨ds, roots, samples⟩ := ih further
    exact ⟨d :: ds, by rw [List.map_cons, root, roots], List.forall_mem_cons.mpr ⟨sample, samples⟩⟩

end Derivation

end Typings
