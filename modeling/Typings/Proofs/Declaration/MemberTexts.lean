import Typings.Proofs.Declaration.TypeTexts
import Typings.Proofs.Syntax.MemberRows
/-!
# Members in writing

What is printed of a member of an interface or an object type can be written as a member, and is read back.

* `TypeMember.ReadsBack`           what is printed of a member is read back;
* `TypeMember.readsBack_method`, …   one lemma for each kind of member;
* `TypeExpr.readsBack_object`      an object type of members that are read back.
-/

namespace Typings
open Terminal Nonterminal Typings.Tree

/-- a name that no keyword takes the place of, or a number -/
inductive Text.NamesMember : Text → Prop
  | name {name : Text} (isName : name.isName = true) (free : ∀ u ∈ [NEW], u.isWord name = false) :
      NamesMember name
  | number {number : Text} (isNumber : NUMERAL.Matches number []) : NamesMember number

/-- the name of a member -/
theorem Text.NamesMember.writes {name : Text} (h : name.NamesMember) : ∃ k : Terminal,
    (k = NAME ∨ k = NUMERAL) ∧
      Writes [NEW] [.nonterminal propertyName] name [.leaf (some k) name Cursor.start.loc] := by
  cases h with
  | name isName free =>
    have row := (Writes.nil []).name isName free Text.apart_nil
    rw [List.append_nil] at row
    exact ⟨NAME, .inl rfl, row.transparent (by decide) (List.nil_subset _) rfl⟩
  | number isNumber =>
    have row : Writes [NEW] _ _ _ := (Writes.nil []).numeral isNumber Text.apart_nil
    rw [List.append_nil] at row
    exact ⟨NUMERAL, .inr rfl, row.transparent (by decide) (List.nil_subset _) rfl⟩

namespace TypeMember

/-- what is printed of a member can be written as one, and is read as the member at the first place -/
def ReadsBack (m : TypeMember) : Prop :=
  Typings.ReadsBack ofTrees typeMember m.render (m.moved Loc.first)

/-- a member of one kind is a member -/
theorem readsBack_of_node {n : Nonterminal} {m : TypeMember} {cs : List Tree}
    (kind : [.nonterminal n] ∈ typeMember.rows)
    (writes : Writes [NEW] [.nonterminal n] m.render [.node (.phrase n) Cursor.start.loc cs])
    (reads : ofTree (.node (.phrase n) Cursor.start.loc cs) = .ok (m.moved Loc.first)) : m.ReadsBack := by
  refine ⟨_, writes.transparent kind (List.Subset.refl _) rfl, fun rest l further => ?_⟩
  rw [List.singleton_append, ofTrees, reads, further]
  rfl

/-- a name, and what it holds, is read from the parts -/
theorem ofTree_property {k : Terminal} {name : Text} {optional : Bool} {ts : List Tree} {type : Option TypeExpr}
    (isKind : k = NAME ∨ k = NUMERAL) (ascribes : TypeExpr.Ascribes ts type) :
    ofTree (.node (.phrase propertySignature) Cursor.start.loc
      (.leaf (some k) name Cursor.start.loc :: (question optional ++ ts))) =
        .ok (.property Cursor.start.loc name type optional) := by
  have spelled : propertyName (.phrase propertySignature) Cursor.start.loc
      (.leaf (some k) name Cursor.start.loc :: (question optional ++ ts)) = .ok name := by
    rcases isKind with rfl | rfl <;> rfl
  have typed : TypeExpr.ascriptionIn (.leaf (some k) name Cursor.start.loc :: (question optional ++ ts)) =
      .ok type := by
    rw [TypeExpr.ascriptionIn, TypeExpr.ascriptionIn_append (question_passes optional _), ascribes.ascriptionIn]
  have mark : hasToken QMARK (.leaf (some k) name Cursor.start.loc :: (question optional ++ ts)) = optional := by
    have other : some k ≠ some QMARK := by rcases isKind with rfl | rfl <;> nofun
    rw [hasToken, token?, if_neg other]
    exact hasToken_question (ascribes.token?_none _)
  rw [ofTree, spelled, typed, mark]
  rfl

section
variable {loc : Loc} {name : Text}

/-- a name and what it holds -/
theorem readsBack_property {type : Option TypeExpr} {optional : Bool} (names : name.NamesMember)
    (h : ∀ t ∈ type, t.ReadsBack) : ReadsBack (.property loc name type optional) := by
  obtain ⟨k, isKind, named⟩ := names.writes
  obtain ⟨symbols, mem, ts, writes, ascribes, apart⟩ := TypeExpr.writes_optional optional h
  have row := (named.append (writes [NEW]) apart).node (n := propertySignature) (List.mem_map_of_mem mem)
    (List.nil_subset _) rfl
  rw [← List.append_assoc] at row
  exact readsBack_of_node (by decide) row (ofTree_property isKind ascribes)

/-- a name and a signature -/
theorem readsBack_method {signature : Signature} {optional : Bool} (names : name.NamesMember)
    (h : signature.ReadsBack) : ReadsBack (.method loc name signature optional) := by
  obtain ⟨k, isKind, named⟩ := names.writes
  obtain ⟨symbols, mem, ts, writes, reads, apart⟩ := h
  have called := (writes [NEW]).node (n := callSignature) mem (List.nil_subset _) rfl
  obtain ⟨behind, isRow, writes, apart⟩ : ∃ behind : List Symbol,
      .nonterminal propertyName :: behind ∈ methodSignature.rows ∧
      Writes [NEW] behind (Text.when optional "?" ++ signature.render)
        (question optional ++ [.node (.phrase callSignature) Cursor.start.loc ts]) ∧
      (Text.when optional "?" ++ signature.render).Apart := by
    cases optional with
    | false => exact ⟨_, by decide, called, apart⟩
    | true =>
      have isQuestion : QMARK.spelling? = some "?" := rfl
      exact ⟨_, by decide, called.mark isQuestion nofun rfl (apart.not_begins nofun) _,
        Text.apart_cons (by decide) _⟩
  have row := (named.append writes apart).node isRow (List.nil_subset _) rfl
  rw [← List.append_assoc] at row
  refine readsBack_of_node (by decide) row ?_
  have spelled : propertyName (.phrase methodSignature) Cursor.start.loc ([.leaf (some k) name Cursor.start.loc] ++
      (question optional ++ [.node (.phrase callSignature) Cursor.start.loc ts])) = .ok name := by
    rcases isKind with rfl | rfl <;> rfl
  have signed : Signature.callIn (.phrase methodSignature) Cursor.start.loc
      ([.leaf (some k) name Cursor.start.loc] ++
        (question optional ++ [.node (.phrase callSignature) Cursor.start.loc ts])) =
      .ok (signature.moved Loc.first) := by
    rw [List.singleton_append, Signature.callIn, Signature.callIn_append (question_passes optional _),
      Signature.callIn, if_pos rfl]
    exact reads
  have mark : hasToken QMARK ([.leaf (some k) name Cursor.start.loc] ++
      (question optional ++ [.node (.phrase callSignature) Cursor.start.loc ts])) = optional := by
    have other : some k ≠ some QMARK := by rcases isKind with rfl | rfl <;> nofun
    rw [List.singleton_append, hasToken, token?, if_neg other]
    exact hasToken_question rfl
  rw [ofTree, spelled, signed, mark]
  rfl

/-- a signature -/
theorem readsBack_call {signature : Signature} (h : signature.ReadsBack) : ReadsBack (.call loc signature) := by
  obtain ⟨symbols, mem, ts, writes, reads, _⟩ := h
  have row := (writes [NEW]).node (n := callSignature) mem (List.nil_subset _) rfl
  refine readsBack_of_node (by decide) row ?_
  rw [Signature.ofRow] at reads
  rw [ofTree, reads]
  rfl

/-- a signature behind `new` -/
theorem readsBack_construct {signature : Signature} (h : signature.ReadsBack) :
    ReadsBack (.construct loc signature) := by
  obtain ⟨symbols, mem, ts, writes, reads, _⟩ := h
  obtain ⟨tail, _, isCall⟩ := List.mem_flatMap.mp mem
  have isNew : NEW.spelling? = some "new" := rfl
  have row := ((writes []).spaced (Symbol.calls_ne_nil isCall)).sign isNew nofun rfl
    (Text.not_begins_cons (goesOn_space _) _) [NEW]
  have written := row.node (n := constructSignature) (List.mem_map_of_mem mem) (List.nil_subset _) rfl
  refine readsBack_of_node (by decide) written ?_
  rw [Signature.ofRow] at reads
  rw [ofTree, reads]
  rfl

/-- the type of a key in brackets, and the type of the values -/
theorem readsBack_index {keyType valueType : TypeExpr} (isName : name.isName = true) (hk : keyType.ReadsBack)
    (hv : valueType.ReadsBack) : ReadsBack (.index loc name keyType valueType) := by
  obtain ⟨label, cs, writes, isType, reads⟩ := hk
  obtain ⟨cs', annotates, first⟩ := hv.typed
  have isColon : COLON.spelling? = some ":" := rfl
  have isLeft : LSQB.spelling? = some "[" := rfl
  have isRight : RSQB.spelling? = some "]" := rfl
  have behind := (TypeExpr.writes_typeExpr writes).append ((annotates []).punctuation isRight rfl _)
    (Text.apart_cons (by decide) _)
  have typed := (behind.spaced (by decide)).punctuation isColon rfl []
  have named := typed.name isName (Writes.free_nil name) (Text.apart_cons (by decide) _)
  have row := (named.punctuation isLeft rfl [NEW]).node (n := indexSignature) (by decide) (List.nil_subset _) rfl
  have written : Writes [NEW] [.nonterminal indexSignature] (index loc name keyType valueType).render
      [.node (.phrase indexSignature) Cursor.start.loc (.leaf (some NAME) name Cursor.start.loc ::
        ([.node label Cursor.start.loc cs] ++ [.node (.phrase ascription) Cursor.start.loc cs']))] := by
    rw [render]
    simp only [List.append_assoc]
    exact row
  have keyed : TypeExpr.keyTypeIn? (.leaf (some NAME) name Cursor.start.loc ::
      ([.node label Cursor.start.loc cs] ++ [.node (.phrase ascription) Cursor.start.loc cs'])) =
      some (.ok (keyType.moved Loc.first)) := by
    rw [TypeExpr.keyTypeIn?, List.singleton_append, TypeExpr.keyTypeIn?, if_pos isType, reads]
  have valued : TypeExpr.ascriptionIn (.leaf (some NAME) name Cursor.start.loc ::
      ([.node label Cursor.start.loc cs] ++ [.node (.phrase ascription) Cursor.start.loc cs'])) =
      .ok (some (valueType.moved Loc.first)) := by
    have other : label ≠ .phrase ascription := by
      rintro rfl
      cases isType
    rw [TypeExpr.ascriptionIn, List.singleton_append, TypeExpr.ascriptionIn, if_neg other, TypeExpr.ascriptionIn,
      if_pos rfl, first]
    rfl
  refine readsBack_of_node (by decide) written ?_
  rw [ofTree, keyed, valued]
  rfl

end

theorem renderAll_eq_map (ms : List TypeMember) : renderAll ms = ms.map render := by
  induction ms with
  | nil => rfl
  | cons m ms ih => rw [renderAll, ih, List.map_cons]

theorem movedAll_eq_map (f : Loc → Loc) (ms : List TypeMember) : movedAll f ms = ms.map (moved f) := by
  induction ms with
  | nil => rfl
  | cons m ms ih => rw [movedAll, ih, List.map_cons]

/-- members with a separator behind each, in braces -/
theorem writes_closed {ms : List TypeMember} (h : ∀ m ∈ ms, m.ReadsBack) :
    ∃ ts, (∀ words, Writes words [.nonterminal objectType]
      (Text.ofString "\x7b" ++ (ms.flatMap (fun m => Text.ofString " " ++ (m.render ++ Text.ofString ";")) ++
        Text.ofString " \x7d")) [.node (.phrase objectType) Cursor.start.loc ts]) ∧
      ofTrees ts = .ok (movedAll Loc.first ms) := by
  choose! trees writes reads using h
  have empty : ofTrees [] = .ok [] := by rw [ofTrees]
  refine ⟨_, Writes.closed_object writes, ?_⟩
  rw [movedAll_eq_map]
  exact readsAs_flatMap empty reads

end TypeMember

/-- members in braces are an object type -/
theorem TypeExpr.readsBack_object {loc : Loc} {ms : List TypeMember} (h : ∀ m ∈ ms, m.ReadsBack) :
    ReadsBack (.object loc ms) := by
  choose! trees writes reads using h
  have empty : TypeMember.ofTrees [] = .ok [] := by rw [TypeMember.ofTrees]
  have type := (Writes.object writes typeWords).transparent (n := primaryType) (by decide) (List.nil_subset _) rfl
  rw [← TypeMember.renderAll_eq_map] at type
  refine ⟨_, _, type, rfl, ?_⟩
  rw [ofTree, readsAs_flatMap empty reads, moved, TypeMember.movedAll_eq_map]
  rfl

end Typings
