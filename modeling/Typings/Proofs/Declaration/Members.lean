import Typings.Proofs.Declaration.Types
/-!
# Reading members

The phrases of signatures and of the members of interfaces mean what `Means` says.

* `signature_reads`, `callIn_reads`      what stands behind the name of a method;
* `named_inv`                            the name of a member of an interface or of a class;
* `indexSignature_means`, `typeMember_means`, …   one lemma for each phrase.
-/

namespace Typings
open Typings.Tree

section
open Terminal Nonterminal Slot
variable {loc : Loc} {ts : List Tree} {ls : List Token}

/-! ## Signatures -/

/-- a row adds type parameters or parameters to the heads of a signature -/
def PassesHeads : List Tree → List Token → Prop :=
  Passes (Adds Signature.headsIn Signature.SortedHeads)

theorem typeParameters_passHeads (h : Perhaps (Shows typeParameters) ts ls) : PassesHeads ts ls := by
  rcases h with ⟨loc', cs, rfl, reads⟩ | ⟨rfl, rfl⟩
  · intro rest more good heads sorted
    rw [List.singleton_append, Signature.headsIn, if_pos rfl]
    exact reads.bind fun typeParams h => good _ ⟨h, sorted.2⟩
  · exact Passes.nil

theorem parameterList_passHeads (h : Perhaps (Shows parameterList) ts ls) : PassesHeads ts ls := by
  rcases h with ⟨loc', cs, rfl, reads⟩ | ⟨rfl, rfl⟩
  · intro rest more good heads sorted
    rw [List.singleton_append, Signature.headsIn, if_neg (by decide), if_pos rfl]
    exact reads.bind fun params h => good _ ⟨sorted.1, h⟩
  · exact Passes.nil

theorem ascription_no_heads (h : Perhaps (Shows ascription) ts ls)
    (heads : List TypeParam × List Param) : Signature.headsIn heads ts = .ok heads := by
  rcases h with ⟨loc', cs, rfl, reads⟩ | ⟨rfl, rfl⟩
  · rw [Signature.headsIn, if_neg (by decide), if_neg (by decide), Signature.headsIn]
  · rw [Signature.headsIn]

/-- what stands behind the name of a method -/
theorem signature_reads
    (h : Row false [optional typeParameters, optional parameterList, optional ascription] ts ls) :
    Reads ls Signature.Sorted (Signature.ofRow ts) := by
  obtain ⟨tp, ts₁, lp, ls₁, rfl, rfl, typeParams, h₁⟩ := h.optional_inv
  obtain ⟨tq, tr, lq, lr, rfl, rfl, params, h₂⟩ := h₁.optional_inv
  have result := h₂.lastOptional_inv
  have heads : Reads (lp ++ lq) Signature.SortedHeads
      (Signature.headsIn ([], []) (tp ++ (tq ++ tr))) := by
    have passes := (typeParameters_passHeads typeParams).append (parameterList_passHeads params)
    have none : Adds Signature.headsIn Signature.SortedHeads tr [] := by
      intro heads sorted
      rw [ascription_no_heads result]
      exact .ok sorted
    have empty : Signature.SortedHeads ([], []) :=
      ⟨fun p h => absurd h List.not_mem_nil, fun p h => absurd h List.not_mem_nil⟩
    have := passes tr [] none ([], []) empty
    rwa [List.append_nil, List.append_assoc] at this
  have same : TypeExpr.ascriptionIn (tp ++ (tq ++ tr)) = TypeExpr.ascriptionIn tr := by
    rw [TypeExpr.ascriptionIn_append (typeParams.child?_ne (by decide)),
      TypeExpr.ascriptionIn_append (params.child?_ne (by decide))]
  unfold Signature.ofRow
  rw [same, ← List.append_assoc]
  exact heads.bind fun heads sorted =>
    (ascription_reads result).map fun t sortedResult => .mk sorted.1 sorted.2 sortedResult

theorem callSignature_means
    (h : Row false [optional typeParameters, optional parameterList, optional ascription] ts ls) :
    Means callSignature [.node (.phrase callSignature) loc ts] ls :=
  ⟨loc, ts, rfl, signature_reads h⟩

theorem constructSignature_means
    (h : Row false [optional typeParameters, optional parameterList, optional ascription] ts ls) :
    Means constructSignature [.node (.phrase constructSignature) loc ts] ls := by
  refine ⟨_, loc, ts, rfl, ?_⟩
  show Reads ls _ (TypeMember.ofTree _)
  rw [TypeMember.ofTree]
  exact (signature_reads h).map fun s sorted => .construct loc sorted

/-- the signature of a node comes behind everything else -/
theorem callIn_reads {a : List Tree} (none : child? callSignature a = none)
    (h : Shows callSignature ts ls) (label : Label) (loc : Loc) :
    Reads ls Signature.Sorted (Signature.callIn label loc (a ++ ts)) := by
  obtain ⟨loc', cs, rfl, reads⟩ := h
  rw [Signature.callIn_append none, Signature.callIn, if_pos rfl]
  exact reads

/-! ## Members -/

/-- the name of a member with its question mark, and what stands behind them -/
theorem named_inv {slots : List Slot}
    (h : Row false (.once (.nonterminal propertyName) :: .optional (.terminal QMARK) :: slots)
      ts ls) :
    ∃ tn tt ln lt, ts = tn ++ tt ∧ ls = ln ++ lt ∧ Row false slots tt lt ∧
      (∀ n, child? n tn = none) ∧
      ∀ a, Nameless a → ∀ (label : Label) (loc : Loc) (rest : List Tree),
        Reads ln (fun _ => True) (Tree.propertyName label loc (a ++ (tn ++ rest))) := by
  obtain ⟨tn, ts₁, ln, ls₁, rfl, rfl, here, h₁⟩ := h.once_inv
  obtain ⟨tq, tt, lq, lt, rfl, rfl, mark, further⟩ := h₁.optional_inv
  obtain ⟨rfl, -⟩ := mark.word rfl (by decide)
  refine ⟨tn ++ tq, tt, ln, lt, (List.append_assoc tn tq tt).symm, rfl, further, ?_, ?_⟩
  · intro n
    rw [child?_append, child?_propertyName here, mark.child?_word]
    rfl
  · intro a nameless label loc rest
    rw [List.append_assoc]
    exact propertyName_reads nameless here label loc (tq ++ rest)

theorem propertySignature_means
    (h : Row false [propertyName, optional QMARK, optional ascription] ts ls) :
    Means propertySignature [.node (.phrase propertySignature) loc ts] ls := by
  obtain ⟨tn, tt, ln, lt, rfl, rfl, further, nodeless, named⟩ := named_inv h
  have name := named [] ⟨rfl, rfl, rfl⟩ (.phrase propertySignature) loc tt
  have type := ascription_reads further.lastOptional_inv
  refine ⟨_, loc, _, rfl, ?_⟩
  show Reads _ _ (TypeMember.ofTree _)
  rw [TypeMember.ofTree, TypeExpr.ascriptionIn_append (nodeless ascription)]
  exact name.bind fun name _ => type.map fun t sorted => .property loc name _ sorted

theorem methodSignature_means (h : Row false [propertyName, optional QMARK, callSignature] ts ls) :
    Means methodSignature [.node (.phrase methodSignature) loc ts] ls := by
  obtain ⟨tn, tc, ln, lc, rfl, rfl, further, nodeless, named⟩ := named_inv h
  have name := named [] ⟨rfl, rfl, rfl⟩ (.phrase methodSignature) loc tc
  have signature := callIn_reads (nodeless callSignature) further.last_inv
    (.phrase methodSignature) loc
  refine ⟨_, loc, _, rfl, ?_⟩
  show Reads _ _ (TypeMember.ofTree _)
  rw [TypeMember.ofTree]
  exact name.bind fun name _ => signature.map fun s sorted => .method loc name _ sorted

theorem TypeMember.indexOfParts_eq (label : Label) (loc : Loc) (key : Text)
    (keyType valueType : Except BuildError TypeExpr) :
    indexOfParts label loc (.ok key) (some keyType) (valueType >>= fun t => .ok (some t)) =
      valueType >>= fun v => keyType >>= fun k => .ok (.index loc key k v) := by
  cases valueType with
  | error e => rfl
  | ok v => rfl

/-- the type of the values is read before the type of the key -/
theorem indexSignature_means (h : Row true [NAME, typeExpr, ascription] ts ls) :
    Means indexSignature [.node (.phrase indexSignature) loc ts] ls := by
  cases h with
  | @once _ _ tn _ ln _ key h₁ =>
    cases h₁ with
    | @once _ _ tk tv lk lv keyType h₂ =>
      obtain ⟨rfl, text, loc', rfl⟩ := key.word rfl (by decide)
      obtain ⟨label, loc'', cs, rfl, isType, reads⟩ := keyType
      obtain ⟨loc₃, cs', rfl, r, first, readsValue⟩ := h₂.last_inv
      have ne : label ≠ .phrase ascription := by
        rintro rfl
        cases isType
      have keyFound : TypeExpr.keyTypeIn? ([.leaf (some NAME) text loc'] ++
          ([.node label loc'' cs] ++ [.node (.phrase ascription) loc₃ cs'])) =
            some (TypeExpr.ofTree (.node label loc'' cs)) := by
        rw [List.singleton_append, TypeExpr.keyTypeIn?, List.singleton_append,
          TypeExpr.keyTypeIn?, if_pos isType]
      have valueFound : TypeExpr.ascriptionIn ([.leaf (some NAME) text loc'] ++
          ([.node label loc'' cs] ++ [.node (.phrase ascription) loc₃ cs'])) =
            r >>= fun t => .ok (some t) := by
        rw [List.singleton_append, TypeExpr.ascriptionIn, List.singleton_append,
          TypeExpr.ascriptionIn, if_neg ne, TypeExpr.ascriptionIn, if_pos rfl, first]
      refine ⟨loc, _, rfl, ?_⟩
      rw [inOrder_nil]
      show Reads (lv ++ lk) _ (TypeMember.indexOfParts _ _ (.ok text) _ _)
      rw [keyFound, valueFound, TypeMember.indexOfParts_eq]
      exact readsValue.bind fun v sortedValue =>
        reads.map fun k sortedKey => ⟨.index loc text sortedKey sortedValue, trivial⟩

theorem isMember_of_callSignature (h : Means callSignature ts ls) : Means typeMember ts ls := by
  obtain ⟨loc', cs, rfl, reads⟩ := h
  refine ⟨_, loc', cs, rfl, ?_⟩
  show Reads ls _ (TypeMember.ofTree _)
  rw [TypeMember.ofTree]
  exact reads.map fun s sorted => .call loc' sorted

theorem isMember_of_indexSignature (h : Means indexSignature ts ls) : Means typeMember ts ls := by
  obtain ⟨loc', cs, rfl, reads⟩ := h
  refine ⟨_, loc', cs, rfl, ?_⟩
  show Reads ls _ (TypeMember.ofTree _)
  rw [TypeMember.ofTree]
  exact reads.mono fun m sorted => sorted.1

theorem typeMember_means (h : Row false [propertySignature] ts ls ∨
    Row false [methodSignature] ts ls ∨ Row false [callSignature] ts ls ∨
    Row false [constructSignature] ts ls ∨ Row false [indexSignature] ts ls) :
    Means typeMember (Derivation.shown typeMember loc ts) ls := by
  have node : Means typeMember ts ls := by
    rcases h with h | h | h | h | h
    · exact h.last_inv
    · exact h.last_inv
    · exact isMember_of_callSignature h.last_inv
    · exact h.last_inv
    · exact isMember_of_indexSignature h.last_inv
  rw [Means] at node ⊢
  exact node.shown rfl

theorem member_passes (h : Means typeMember ts ls) : Means objectMembers ts ls := by
  obtain ⟨label, loc', cs, rfl, reads⟩ := h
  exact Passes.one (fun rest => by rw [TypeMember.ofTrees]) reads

/-- a member with what separates it from the next one -/
theorem separated_passes (h : Row false [typeMember, optional memberSeparator] ts ls) :
    Means objectMembers ts ls := by
  obtain ⟨t, t', l, l', rfl, rfl, here, further⟩ := h.once_inv
  have none : t' = [] ∧ l' = [] := by
    rcases further.lastOptional_inv with h | h
    · exact h
    · exact h
  obtain ⟨rfl, rfl⟩ := none
  rw [List.append_nil, List.append_nil]
  exact member_passes here

theorem objectMembers_means (h : Row false [typeMember, optional memberSeparator] ts ls ∨
    Row false [objectMembers, typeMember, optional memberSeparator] ts ls) :
    Means objectMembers ts ls := by
  rcases h with h | h
  · exact separated_passes h
  · obtain ⟨t, t', l, l', rfl, rfl, here, further⟩ := h.once_inv
    exact Passes.append here (separated_passes further)

theorem objectType_means (h : Row false [optional objectMembers] ts ls) :
    Means objectType [.node (.phrase objectType) loc ts] ls := by
  have none : Builds TypeMember.ofTrees TypeMember.Sorted [] [] := by
    unfold Builds
    rw [TypeMember.ofTrees]
    exact .ok fun a h => absurd h List.not_mem_nil
  exact ⟨loc, ts, rfl, (Perhaps.passes h.lastOptional_inv).alone none⟩

end

end Typings
