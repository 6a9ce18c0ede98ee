import Typings.Proofs.Grammar.Rewriting
import Typings.Proofs.Syntax.Steps
import Typings.Report.Read
/-!
# What is read is a declaration file

A text that is read falls apart into gaps and tokens, the classes of the tokens are a file by the
rules of the grammar, and the declarations are those of a tree of these rules.

* `Spelled place text tokens`     a text is the tokens with gaps around them;
* `Parser.tokensOf`               the tokens under a stack: reductions keep them, a shift adds one;
* `Parser.Reads.keeps`            the tokens that a stack reads are put under it;
* `Parser.ScannedTo.spelled`      a text that is scanned to its end is made of its tokens;
* `SourceFile.read_eq_ok_iff`     the main result.
-/

namespace Typings

/-! ## Texts of tokens -/

/-- a text that starts at a place is made of a row of tokens, with gaps before, between and behind
them; each token starts where the text before it ends -/
inductive Spelled : Cursor → Text → List Token → Prop
  | nil {place : Cursor} {gap : Text} (isGap : Gap gap []) : Spelled place gap []
  | cons {place : Cursor} {gap piece rest : Text} {kind : Terminal} {tokens : List Token}
      (isGap : Gap gap (piece ++ rest)) (some : piece ≠ []) (isToken : kind.Matches piece rest)
      (further : Spelled ((place.advance gap).advance piece) rest tokens) :
      Spelled place (gap ++ (piece ++ rest)) (⟨kind, piece, place.advance gap⟩ :: tokens)

/-- a derivation explains a text: it derives from the grammar the classes of the tokens that the
text is made of -/
structure Derivation.Explains (d : Derivation) (source : Text) : Prop where
  valid : d.Valid
  root : d.root = .nonterminal .file
  spelled : Spelled .start source d.tokens
  derives : Derives [.nonterminal .file] (symbols d.tokens)

namespace Parser

/-! ## Stacks -/

/-- the tokens under a stack, from its bottom to its top -/
def tokensOf (stack : List Frame) : List Token :=
  Derivation.tokensOf (stack.map (·.derivation)).reverse

/-- every derivation on a stack is one of the grammar -/
def Valid (stack : List Frame) : Prop := ∀ f ∈ stack, f.derivation.Valid

theorem valid_cons {f : Frame} {stack : List Frame} :
    Valid (f :: stack) ↔ f.derivation.Valid ∧ Valid stack := List.forall_mem_cons

theorem tokensOf_append (above below : List Frame) :
    tokensOf (above ++ below) = tokensOf below ++ tokensOf above := by
  simp only [tokensOf, Derivation.tokensOf_eq_flatMap, List.map_append, List.reverse_append,
    List.flatMap_append]

theorem tokensOf_cons (f : Frame) (stack : List Frame) :
    tokensOf (f :: stack) = tokensOf stack ++ f.derivation.tokens := by
  rw [← List.singleton_append, tokensOf_append]
  congr 1
  exact List.append_nil _

/-- a reduction keeps the tokens under the stack, and puts a valid derivation on it -/
theorem reduce?_keeps {p : Production} {stack below : List Frame} {d : Derivation}
    (mem : p ∈ productions) (valid : Valid stack) (h : reduce? p stack = some (d, below)) :
    d.Valid ∧ d.root = .nonterminal p.lhs ∧ Valid below ∧
      tokensOf below ++ d.tokens = tokensOf stack := by
  obtain ⟨rfl, rfl, roots⟩ := eq_of_reduce? h
  refine ⟨.node mem roots ((Derivation.allValid_iff _).mpr fun d hd => ?_), rfl,
    fun f hf => valid f (List.mem_of_mem_drop hf), ?_⟩
  · obtain ⟨f, hf, rfl⟩ := List.mem_map.mp (List.mem_reverse.mp hd)
    exact valid f (List.mem_of_mem_take hf)
  · have e := tokensOf_append (stack.take p.rhs.length) (stack.drop p.rhs.length)
    rw [List.take_append_drop] at e
    exact e.symm

/-- what a reaction to a token has to do with the derivations and the tokens of the stack -/
def Keeps (stack : List Frame) (token : Token) : Reaction → Prop
  | .shifted next => Valid next ∧ tokensOf next = tokensOf stack ++ [token]
  | .accepted d => d.Valid ∧ d.root = .nonterminal .file ∧ d.tokens = tokensOf stack
  | .refused _ | .derailed => True

theorem Reacts.keeps {stack : List Frame} {token : Token} {reaction : Reaction}
    (h : Reacts token stack reaction) (valid : Valid stack) : Keeps stack token reaction := by
  induction h with
  | refused => trivial
  | shifted => exact ⟨valid_cons.mpr ⟨.leaf token, valid⟩, tokensOf_cons _ _⟩
  | accepted act red isFile _ =>
    obtain ⟨_, mem, _⟩ := Automaton.action_reduce act
    obtain ⟨dValid, root, _, same⟩ := reduce?_keeps (Automaton.mem_reductions mem).1 valid red
    exact ⟨dValid, by rw [root, isFile], same⟩
  | reduced act red _ _ _ ih =>
    obtain ⟨_, mem, _⟩ := Automaton.action_reduce act
    obtain ⟨dValid, _, belowValid, same⟩ := reduce?_keeps (Automaton.mem_reductions mem).1 valid red
    have h := ih (valid_cons.mpr ⟨dValid, belowValid⟩)
    unfold Keeps at h ⊢
    rw [tokensOf_cons, same] at h
    exact h

/-! ## Runs -/

/-- the tokens that a stack reads are put under it -/
theorem Reads.keeps {stack left : List Frame} {tokens : List Token} {states : List Nat}
    (h : Reads stack tokens states left) (valid : Valid stack) :
    Valid left ∧ tokensOf left = tokensOf stack ++ tokens := by
  induction h with
  | nil => exact ⟨valid, (List.append_nil _).symm⟩
  | cons shifted _ ih =>
    obtain ⟨nextValid, next⟩ := (reacts_of_react shifted fun e => nomatch e).keeps valid
    obtain ⟨leftValid, same⟩ := ih nextValid
    refine ⟨leftValid, ?_⟩
    rw [same, next, List.append_assoc]
    rfl

/-- in front of nothing but ignored text, the tokens are those of the whole text -/
theorem ScannedTo.spelled {here place : Cursor} {behind text : Text} {state : Nat} {tokens : List Token}
    {states : List Nat} (h : ScannedTo here behind state place text tokens states)
    (ends : (Pattern.gap behind).2 = []) : Spelled place text tokens := by
  induction h with
  | nil =>
    have isGap := Pattern.gap_isGap behind
    have whole := Pattern.gap_append behind
    rw [ends] at isGap whole
    rw [List.append_nil] at whole
    exact .nil (whole ▸ isGap)
  | @cons _ _ place text _ _ _ _ _ found _ ih =>
    obtain ⟨isToken, whole⟩ := Token.matches_of_read? found
    have isGap := Pattern.gap_isGap text
    rw [← whole] at isGap
    have spelled := Spelled.cons isGap isToken.ne_nil isToken ih
    rwa [whole, Pattern.gap_append] at spelled

end Parser

/-- the derivation of a text explains the text -/
theorem explains_of_parse {source : Text} {d : Derivation} (h : parse source = .ok d) :
    d.Explains source := by
  obtain ⟨tokens, states, left, here, behind, reads, scanned, ends⟩ := (parse_eq_iff source _).mp h
  cases ends with
  | accepted ends accepts =>
    obtain ⟨leftValid, same⟩ := reads.keeps fun f hf => absurd hf List.not_mem_nil
    obtain ⟨valid, root, e⟩ := (Parser.reacts_of_react accepts fun e => nomatch e).keeps leftValid
    have e : d.tokens = tokens := e.trans same
    subst e
    refine ⟨valid, root, scanned.spelled ends, ?_⟩
    have derives := valid.derives
    rwa [root] at derives

namespace SourceFile

/-! ## Texts that are read -/

/-- a text that is refused is not read -/
theorem read_of_parse_error {source : Text} {e : SyntaxError} (h : parse source = .error e) :
    read source = .error (.syntaxError e) := by
  unfold read
  simp only [h]

/-- the declarations of a text that is parsed are those of the tree of its derivation -/
theorem read_of_parse_ok {source : Text} {d : Derivation} (h : parse source = .ok d) :
    read source = (SourceFile.ofTree (.ofDerivation d)).mapError .buildError := by
  unfold read
  simp only [h]
  cases SourceFile.ofTree (.ofDerivation d) <;> rfl

/-- what is read has been parsed -/
theorem ofTree_of_read {source : Text} {f : SourceFile} (h : read source = .ok f) :
    ∃ d, parse source = .ok d ∧ SourceFile.ofTree (.ofDerivation d) = .ok f := by
  cases parsed : parse source with
  | error e =>
    rw [read_of_parse_error parsed] at h
    cases h
  | ok d =>
    rw [read_of_parse_ok parsed] at h
    refine ⟨d, rfl, ?_⟩
    cases built : SourceFile.ofTree (.ofDerivation d) with
    | error e =>
      rw [built] at h
      cases h
    | ok g =>
      rw [built] at h
      cases h
      rfl

/-- **A text is read exactly when the parser finds a derivation that explains it and the
declarations are those of the tree of this derivation.** -/
theorem read_eq_ok_iff (source : Text) (f : SourceFile) :
    read source = .ok f ↔ ∃ d : Derivation, parse source = .ok d ∧ d.Explains source ∧
      SourceFile.ofTree (.ofDerivation d) = .ok f := by
  constructor
  · intro h
    obtain ⟨d, parsed, built⟩ := ofTree_of_read h
    exact ⟨d, parsed, explains_of_parse parsed, built⟩
  · rintro ⟨d, parsed, _, built⟩
    rw [read_of_parse_ok parsed, built]
    rfl

end SourceFile

end Typings
