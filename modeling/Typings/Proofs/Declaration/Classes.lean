import Typings.Proofs.Declaration.Members
/-!
# Reading interfaces, classes and enumerations

The phrases of interfaces, classes, their members and enumerations mean what `Means` says.

* `interfaceDeclaration_means`           a named object type;
* `memberFunction_means`, …, `classMember_means`   the members of a class;
* `ambientClass_means`                   a class with all that stands behind its name;
* `enumMembers_read`                     the members of an enumeration.
-/

namespace Typings
open Typings.Tree

section
open Terminal Nonterminal Slot
variable {loc : Loc} {ts : List Tree} {ls : List Token}

/-! ## Interfaces -/

/-- a row adds its parts to an interface -/
def PassesInterface : List Tree → List Token → Prop :=
  Passes (Adds InterfaceDecl.addTrees InterfaceDecl.Sorted)

theorem name_passesInterface (h : Shows NAME ts ls) : PassesInterface ts ls := by
  obtain ⟨rfl, text, loc', rfl⟩ := h.word rfl (by decide)
  intro rest more good decl sorted
  exact good decl sorted

theorem typeParameters_passInterface (h : Perhaps (Shows typeParameters) ts ls) :
    PassesInterface ts ls := by
  rcases h with ⟨loc', cs, rfl, reads⟩ | ⟨rfl, rfl⟩
  · intro rest more good decl sorted
    rw [List.singleton_append, InterfaceDecl.addTrees, if_pos rfl]
    exact reads.bind fun typeParams h => good _ ⟨h, sorted.bases, sorted.members⟩
  · exact Passes.nil

theorem interfaceExtends_passesInterface (h : Perhaps (Shows interfaceExtends) ts ls) :
    PassesInterface ts ls := by
  rcases h with ⟨loc', cs, rfl, reads⟩ | ⟨rfl, rfl⟩
  · intro rest more good decl sorted
    rw [List.singleton_append, InterfaceDecl.addTrees, if_neg (by decide), if_pos rfl]
    exact reads.bind fun bases h => good _ ⟨sorted.typeParams, h, sorted.members⟩
  · exact Passes.nil

theorem objectType_passesInterface (h : Shows objectType ts ls) : PassesInterface ts ls := by
  obtain ⟨loc', cs, rfl, reads⟩ := h
  intro rest more good decl sorted
  rw [List.singleton_append, InterfaceDecl.addTrees, if_neg (by decide), if_neg (by decide),
    if_pos rfl]
  exact reads.bind fun members h => good _ ⟨sorted.typeParams, sorted.bases, h⟩

theorem interfaceDeclaration_means
    (h : Row false [NAME, optional typeParameters, optional interfaceExtends, objectType] ts ls) :
    Means interfaceDeclaration [.node (.phrase interfaceDeclaration) loc ts] ls := by
  obtain ⟨tn, ts₁, ln, ls₁, rfl, rfl, here, h₁⟩ := h.once_inv
  obtain ⟨tp, ts₂, lp, ls₂, rfl, rfl, typeParams, h₂⟩ := h₁.optional_inv
  obtain ⟨te, tm, le, lm, rfl, rfl, bases, h₃⟩ := h₂.optional_inv
  have row := (name_passesInterface here).append ((typeParameters_passInterface typeParams).append
    ((interfaceExtends_passesInterface bases).append (objectType_passesInterface h₃.last_inv)))
  have whole := row.alone fun decl sorted => .ok sorted
  obtain ⟨rfl, name, found⟩ :=
    here.name (a := []) rfl (.phrase interfaceDeclaration) loc (tp ++ (te ++ tm))
  rw [List.nil_append] at found
  refine ⟨loc, _, rfl, ?_⟩
  show Reads _ _ (InterfaceDecl.ofChildren _ _)
  rw [InterfaceDecl.ofChildren, found]
  exact whole _ ⟨fun p h => absurd h List.not_mem_nil, fun p h => absurd h List.not_mem_nil,
    fun p h => absurd h List.not_mem_nil⟩

/-! ## Members of classes -/

theorem constructorDeclaration_means
    (h : Row false [optional Nonterminal.accessibility, optional parameterList] ts ls) :
    Means constructorDeclaration [.node (.phrase constructorDeclaration) loc ts] ls := by
  obtain ⟨ta, tp, la, lp, rfl, rfl, access, h₁⟩ := h.optional_inv
  have params := h₁.lastOptional_inv
  obtain ⟨rfl, a, accessed⟩ := accessibility_reads access (params.child?_ne (by decide))
  have same : child? parameterList (ta ++ tp) = child? parameterList tp := by
    rw [child?_append, access.child?_ne (by decide), Option.none_or]
  refine ⟨_, loc, _, rfl, rfl, ?_⟩
  rw [ClassMember.ofNode, accessed, same]
  rcases params with ⟨loc', cs, rfl, reads⟩ | ⟨rfl, rfl⟩
  · exact reads.map fun params sorted => .initializer loc a sorted
  · exact .ok (.initializer loc a fun p h => absurd h List.not_mem_nil)

/-- the marks and the name of a member of a class, and what stands behind them -/
theorem marked_inv {slots : List Slot}
    (h : Row false (.optional (.nonterminal Nonterminal.accessibility) ::
      .optional (.terminal STATIC) :: .once (.nonterminal propertyName) ::
      .optional (.terminal QMARK) :: slots) ts ls) :
    ∃ tn tt ln lt, ts = tn ++ tt ∧ ls = ln ++ lt ∧ Row false slots tt lt ∧
      (∀ n, Nonterminal.accessibility ≠ n → child? n tn = none) ∧
      ∀ rest, child? Nonterminal.accessibility rest = none → ∀ (label : Label) (loc : Loc),
        (∃ a, Tree.accessibility (tn ++ rest) = .ok a) ∧
          Reads ln (fun _ => True) (Tree.propertyName label loc (tn ++ rest)) := by
  obtain ⟨ta, ts₁, la, ls₁, rfl, rfl, access, h₁⟩ := h.optional_inv
  obtain ⟨tm, ts₂, lm, ls₂, rfl, rfl, static, h₂⟩ := h₁.optional_inv
  obtain ⟨tn, tt, ln, lt, rfl, rfl, further, nodeless, named⟩ := named_inv h₂
  have front : ∀ rest, ta ++ tm ++ tn ++ rest = ta ++ (tm ++ (tn ++ rest)) := by
    intro rest
    rw [List.append_assoc, List.append_assoc]
  have nameless : Nameless (ta ++ tm) := by
    refine ⟨?_, ?_, ?_⟩
    all_goals rw [token?_append, access.token?_phrase, static.token?_ne (by decide), Option.none_or]
  obtain ⟨rfl, -⟩ := static.word rfl (by decide)
  refine ⟨ta ++ tm ++ tn, tt, la ++ ln, lt, (front tt).symm, ?_, further, ?_, ?_⟩
  · rw [List.nil_append, List.append_assoc]
  · intro n ne
    rw [child?_append, child?_append, access.child?_ne ne, static.child?_word, nodeless]
    rfl
  · intro rest none label loc
    have quiet : child? Nonterminal.accessibility (tm ++ (tn ++ rest)) = Option.none := by
      rw [child?_append, child?_append, static.child?_word, nodeless, none]
      rfl
    obtain ⟨rfl, accessed⟩ := accessibility_reads access quiet
    rw [front]
    refine ⟨accessed, ?_⟩
    rw [← List.append_assoc]
    exact named (ta ++ tm) nameless label loc rest

theorem memberFunction_means
    (h : Row false [optional Nonterminal.accessibility, optional STATIC, propertyName,
      optional QMARK, callSignature] ts ls) :
    Means memberFunction [.node (.phrase memberFunction) loc ts] ls := by
  obtain ⟨tn, tc, ln, lc, rfl, rfl, further, nodeless, marked⟩ := marked_inv h
  have call := further.last_inv
  have quiet : child? Nonterminal.accessibility tc = none := by
    obtain ⟨loc', cs, rfl, _⟩ := call
    rfl
  obtain ⟨⟨a, accessed⟩, name⟩ := marked tc quiet (.phrase memberFunction) loc
  have signature := callIn_reads (nodeless callSignature (by decide)) call
    (.phrase memberFunction) loc
  refine ⟨_, loc, _, rfl, rfl, ?_⟩
  rw [ClassMember.ofNode, accessed]
  exact name.bind fun name _ => signature.map fun s sorted => .method loc name _ _ a sorted

theorem memberVariable_means
    (h : Row false [optional Nonterminal.accessibility, optional STATIC, propertyName,
      optional QMARK, optional ascription] ts ls) :
    Means memberVariable [.node (.phrase memberVariable) loc ts] ls := by
  obtain ⟨tn, tt, ln, lt, rfl, rfl, further, nodeless, marked⟩ := marked_inv h
  have type := further.lastOptional_inv
  obtain ⟨⟨a, accessed⟩, name⟩ :=
    marked tt (type.child?_ne (by decide)) (.phrase memberVariable) loc
  refine ⟨_, loc, _, rfl, rfl, ?_⟩
  rw [ClassMember.ofNode, accessed, TypeExpr.ascriptionIn_append (nodeless ascription (by decide))]
  exact name.bind fun name _ =>
    (ascription_reads type).map fun t sorted => .field loc name _ _ a sorted

theorem indexMember_means (h : Row false [indexSignature] ts ls) :
    Means indexMember [.node (.phrase indexMember) loc ts] ls := by
  obtain ⟨loc', cs, rfl, reads⟩ := h.last_inv
  refine ⟨_, loc, _, rfl, rfl, ?_⟩
  exact reads.map fun m sorted => .index loc sorted.1 sorted.2

theorem classMember_means (h : Row false [constructorDeclaration] ts ls ∨
    Row false [memberFunction] ts ls ∨ Row false [memberVariable] ts ls ∨
    Row false [indexMember] ts ls) :
    Means classMember (Derivation.shown classMember loc ts) ls := by
  have node : Means classMember ts ls := by
    rcases h with h | h | h | h
    all_goals exact h.last_inv
  rw [Means] at node ⊢
  exact node.shown rfl

/-! ## Classes -/

theorem classExtends_means (h : Row false [typeReference] ts ls) :
    Means classExtends [.node (.phrase classExtends) loc ts] ls := by
  obtain ⟨loc', cs, rfl, reads⟩ := h.last_inv
  refine ⟨loc, _, rfl, ?_⟩
  show Reads ls _ (TypeExpr.baseIn loc _)
  rw [TypeExpr.baseIn, if_pos rfl]
  exact reads

theorem classImplements_means (h : Row false [typeReference, optional moreReferences] ts ls) :
    Means classImplements [.node (.phrase classImplements) loc ts] ls :=
  ⟨loc, ts, rfl, references_read h⟩

theorem interfaceExtends_means (h : Row false [typeReference, optional moreReferences] ts ls) :
    Means interfaceExtends [.node (.phrase interfaceExtends) loc ts] ls :=
  ⟨loc, ts, rfl, references_read h⟩

theorem name_passesClass (h : Shows NAME ts ls) : Means classMembers ts ls := by
  obtain ⟨rfl, text, loc', rfl⟩ := h.word rfl (by decide)
  intro rest more good parts sorted
  exact good parts sorted

theorem typeParameters_passClass (h : Perhaps (Shows typeParameters) ts ls) :
    Means classMembers ts ls := by
  rcases h with ⟨loc', cs, rfl, reads⟩ | ⟨rfl, rfl⟩
  · intro rest more good parts sorted
    rw [List.singleton_append, ClassParts.addTrees, if_pos rfl]
    exact reads.bind fun typeParams h => good _ ⟨h, sorted.base, sorted.implements, sorted.members⟩
  · exact Passes.nil

theorem classExtends_passesClass (h : Perhaps (Shows classExtends) ts ls) :
    Means classMembers ts ls := by
  rcases h with ⟨loc', cs, rfl, reads⟩ | ⟨rfl, rfl⟩
  · intro rest more good parts sorted
    rw [List.singleton_append, ClassParts.addTrees, if_neg (by decide), if_pos rfl]
    refine reads.bind fun base h => good _ ⟨sorted.typeParams, ?_, sorted.implements, sorted.members⟩
    rintro _ ⟨⟩
    exact h
  · exact Passes.nil

theorem classImplements_passesClass (h : Perhaps (Shows classImplements) ts ls) :
    Means classMembers ts ls := by
  rcases h with ⟨loc', cs, rfl, reads⟩ | ⟨rfl, rfl⟩
  · intro rest more good parts sorted
    rw [List.singleton_append, ClassParts.addTrees, if_neg (by decide), if_neg (by decide),
      if_pos rfl]
    exact reads.bind fun implements h => good _ ⟨sorted.typeParams, sorted.base, h, sorted.members⟩
  · exact Passes.nil

theorem classMember_passesClass (h : Means classMember ts ls) : Means classMembers ts ls := by
  obtain ⟨label, loc', cs, rfl, isMember, reads⟩ := h
  intro rest more good parts sorted
  have ne : ∀ n, Label.isClassPart (.phrase n) = true → label ≠ .phrase n := by
    rintro n isPart rfl
    rw [isMember] at isPart
    cases isPart
  rw [List.singleton_append, ClassParts.addTrees, if_neg (ne typeParameters rfl),
    if_neg (ne classExtends rfl), if_neg (ne classImplements rfl)]
  refine reads.bind fun member h =>
    good _ ⟨sorted.typeParams, sorted.base, sorted.implements, fun m mem => ?_⟩
  rcases List.mem_append.mp mem with mem | mem
  · exact sorted.members m mem
  · rw [List.mem_singleton.mp mem]
    exact h

theorem classMembers_means
    (h : Row false [classMember] ts ls ∨ Row false [classMembers, classMember] ts ls) :
    Means classMembers ts ls := passes_repeated h (fun _ _ => classMember_passesClass) rfl

theorem ambientClass_means
    (h : Row false [NAME, optional typeParameters, optional classExtends, optional classImplements,
      optional classMembers] ts ls) :
    Means ambientClass [.node (.phrase ambientClass) loc ts] ls := by
  obtain ⟨tn, ts₁, ln, ls₁, rfl, rfl, here, h₁⟩ := h.once_inv
  obtain ⟨tp, ts₂, lp, ls₂, rfl, rfl, typeParams, h₂⟩ := h₁.optional_inv
  obtain ⟨te, ts₃, le, ls₃, rfl, rfl, base, h₃⟩ := h₂.optional_inv
  obtain ⟨ti, tm, li, lm, rfl, rfl, implements, h₄⟩ := h₃.optional_inv
  have members : Means classMembers tm lm := Perhaps.passes h₄.lastOptional_inv
  have row := Passes.append (name_passesClass here) (Passes.append (typeParameters_passClass typeParams)
    (Passes.append (classExtends_passesClass base)
      (Passes.append (classImplements_passesClass implements) members)))
  have whole := row.alone fun parts sorted => .ok sorted
  obtain ⟨rfl, name, found⟩ :=
    here.name (a := []) rfl (.phrase ambientClass) loc (tp ++ (te ++ (ti ++ tm)))
  rw [List.nil_append] at found
  refine ⟨_, loc, _, rfl, ?_⟩
  show Reads _ _ (AmbientDecl.ofTree _)
  rw [AmbientDecl.ofTree, found]
  have none : ClassParts.Sorted {} := by
    refine ⟨fun p h => absurd h List.not_mem_nil, ?_, fun p h => absurd h List.not_mem_nil,
      fun p h => absurd h List.not_mem_nil⟩
    rintro _ ⟨⟩
  exact (whole {} none).map fun parts sorted =>
    .classDecl loc name sorted.typeParams sorted.base sorted.implements sorted.members

theorem ambientInterface_means (h : Row false [interfaceDeclaration] ts ls) :
    Means ambientInterface [.node (.phrase ambientInterface) loc ts] ls := by
  obtain ⟨loc', cs, rfl, reads⟩ := h.last_inv
  refine ⟨_, loc, _, rfl, ?_⟩
  show Reads _ _ (AmbientDecl.ofTree _)
  rw [AmbientDecl.ofTree]
  exact reads.map fun decl sorted => .interfaceDecl loc sorted

/-! ## Enumerations -/

theorem enumMember_means
    (h : Row false [propertyName, NUMERAL] ts ls ∨ Row false [propertyName] ts ls) :
    Means enumMember [.node (.phrase enumMember) loc ts] ls := by
  have tokens : ∃ kind text loc' more, Tree.tokens ts = (some kind, text, loc') :: more ∧
      Reads ls (fun _ => True) (memberName (some kind) text loc') := by
    rcases h with h | h
    · obtain ⟨t, t', l, l', rfl, rfl, here, further⟩ := h.once_inv
      obtain ⟨kind, text, loc', rfl, _, reads⟩ := here
      obtain ⟨rfl, value, loc'', rfl⟩ := further.last_inv.word rfl (by decide)
      rw [List.append_nil]
      exact ⟨kind, text, loc', _, rfl, reads⟩
    · obtain ⟨kind, text, loc', rfl, _, reads⟩ := h.last_inv
      exact ⟨kind, text, loc', [], rfl, reads⟩
  obtain ⟨kind, text, loc', more, found, reads⟩ := tokens
  have step : ∀ rest, EnumMember.ofTrees (.node (.phrase enumMember) loc ts :: rest) =
      (memberName (some kind) text loc' >>= fun name =>
        .ok ⟨name, more.head?.map (·.2.1)⟩) >>= fun m =>
          EnumMember.ofTrees rest >>= fun ms => .ok (m :: ms) := by
    intro rest
    rw [EnumMember.ofTrees, if_pos rfl, found, bind_assoc]
    rfl
  exact Passes.one step (reads.map fun _ _ => trivial)

theorem enumMembers_read (h : Row false [enumMember, optional moreEnumMembers] ts ls ∨
    Row false [] ts ls) : Builds EnumMember.ofTrees (fun _ => True) ts ls := by
  have none : Builds EnumMember.ofTrees (fun _ => True) [] [] := .ok fun _ _ => trivial
  rcases h with h | h
  · exact (h.passes_more (fun _ _ h => h) rfl).alone none
  · obtain ⟨rfl, rfl⟩ := h.nil_inv
    exact none

theorem ambientEnum_means
    (h : Row false [optional CONST, NAME, enumMember, optional moreEnumMembers] ts ls ∨
      Row false [optional CONST, NAME] ts ls) :
    Means ambientEnum [.node (.phrase ambientEnum) loc ts] ls := by
  have parts : ∃ tc tn tm lc ln lm, ts = tc ++ (tn ++ tm) ∧ ls = lc ++ (ln ++ lm) ∧
      Perhaps (Shows CONST) tc lc ∧ Shows NAME tn ln ∧
        Builds EnumMember.ofTrees (fun _ => True) tm lm := by
    rcases h with h | h
    · obtain ⟨tc, ts₁, lc, ls₁, rfl, rfl, mark, h₁⟩ := h.optional_inv
      obtain ⟨tn, tm, ln, lm, rfl, rfl, here, h₂⟩ := h₁.once_inv
      exact ⟨tc, tn, tm, lc, ln, lm, rfl, rfl, mark, here, enumMembers_read (.inl h₂)⟩
    · obtain ⟨tc, ts₁, lc, ls₁, rfl, rfl, mark, h₁⟩ := h.optional_inv
      obtain ⟨tn, tm, ln, lm, rfl, rfl, here, h₂⟩ := h₁.once_inv
      exact ⟨tc, tn, tm, lc, ln, lm, rfl, rfl, mark, here, enumMembers_read (.inr h₂)⟩
  obtain ⟨tc, tn, tm, lc, ln, lm, rfl, rfl, mark, here, reads⟩ := parts
  obtain ⟨rfl, name, found⟩ := here.name (mark.token?_ne (by decide)) (.phrase ambientEnum) loc tm
  obtain ⟨-, text, loc', rfl⟩ := here.word rfl (by decide)
  obtain ⟨rfl, marked⟩ := mark.word rfl (by decide)
  have same : EnumMember.ofTrees (tc ++ ([.leaf (some NAME) text loc'] ++ tm)) =
      EnumMember.ofTrees tm := by
    rcases marked with rfl | ⟨text', loc'', rfl⟩
    · rfl
    · rfl
  refine ⟨_, loc, _, rfl, ?_⟩
  show Reads _ _ (AmbientDecl.ofTree _)
  rw [AmbientDecl.ofTree, found, same]
  exact reads.map fun members _ => .enumDecl loc name members _

end

end Typings
