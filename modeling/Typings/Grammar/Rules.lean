import Typings.Grammar.Symbol
/-!
# The declaration grammar

* `Slot`             a symbol that has to be written, or one that may be left out;
* `Rule`             a phrase and its slots;
* `rules`            the grammar;
* `productions`      the plain productions: each rule with every choice of the optional slots.

A repetition is a phrase of its own that grows on the left.  Only `file` can be empty.
-/

namespace Typings

/-- a symbol on the right of a rule -/
inductive Slot where
  | once (s : Symbol)
  | optional (s : Symbol)
deriving DecidableEq

namespace Slot

instance : Coe Terminal Slot := ⟨fun t => once t⟩

instance : Coe Nonterminal Slot := ⟨fun n => once n⟩

/-- the choices of writing each slot, an optional one first with it and then without it -/
def choices : List Slot → List (List Symbol)
  | [] => [[]]
  | once s :: rest => (choices rest).map (s :: ·)
  | optional s :: rest => (choices rest).map (s :: ·) ++ choices rest

/-- a list of symbols is a choice: each slot gives its symbol, or nothing if it is optional -/
inductive Chosen : List Slot → List Symbol → Prop
  | nil : Chosen [] []
  | once (s : Symbol) {slots symbols} : Chosen slots symbols → Chosen (once s :: slots) (s :: symbols)
  | taken (s : Symbol) {slots symbols} :
      Chosen slots symbols → Chosen (optional s :: slots) (s :: symbols)
  | left (s : Symbol) {slots symbols} :
      Chosen slots symbols → Chosen (optional s :: slots) symbols

theorem mem_choices (slots : List Slot) (symbols : List Symbol) :
    symbols ∈ choices slots ↔ Chosen slots symbols := by
  induction slots generalizing symbols with
  | nil =>
    refine ⟨fun h => ?_, fun h => ?_⟩
    · obtain rfl := List.mem_singleton.mp h
      exact .nil
    · cases h
      exact List.mem_singleton.mpr rfl
  | cons slot slots ih =>
    cases slot with
    | once s =>
      simp only [choices, List.mem_map]
      refine ⟨?_, fun h => ?_⟩
      · rintro ⟨rest, h, rfl⟩
        exact .once s ((ih rest).mp h)
      · cases h with
        | once _ h => exact ⟨_, (ih _).mpr h, rfl⟩
    | optional s =>
      simp only [choices, List.mem_append, List.mem_map]
      refine ⟨?_, fun h => ?_⟩
      · rintro (⟨rest, h, rfl⟩ | h)
        · exact .taken s ((ih rest).mp h)
        · exact .left s ((ih symbols).mp h)
      · cases h with
        | taken _ h => exact .inl ⟨_, (ih _).mpr h, rfl⟩
        | left _ h => exact .inr ((ih _).mpr h)

end Slot

/-- a phrase and its slots -/
structure Rule where
  lhs : Nonterminal
  slots : List Slot
deriving DecidableEq

/-- the productions of a rule -/
def Rule.productions (r : Rule) : List Production := (Slot.choices r.slots).map (⟨r.lhs, ·⟩)

section
open Terminal Nonterminal Slot

/-- the rules of declaration files -/
def rules : List Rule := [
  -- files and their elements
  ⟨file, [fileElements]⟩,
  ⟨file, []⟩,
  ⟨fileElements, [element]⟩,
  ⟨fileElements, [fileElements, element]⟩,
  ⟨element, [interfaceElement]⟩,
  ⟨element, [ambientElement]⟩,
  ⟨element, [importAlias]⟩,
  ⟨element, [externalImport]⟩,
  ⟨element, [moduleImport]⟩,
  ⟨element, [exportAssignment]⟩,
  ⟨element, [exportDefault]⟩,
  ⟨element, [exportList]⟩,
  ⟨interfaceElement, [optional EXPORT, interfaceDeclaration]⟩,
  ⟨ambientElement, [optional EXPORT, DECLARE, ambientBody]⟩,
  -- imports and exports
  ⟨importAlias, [optional EXPORT, IMPORT, NAME, EQUAL, entityName, optional SEMICOLON]⟩,
  ⟨externalImport,
    [optional EXPORT, IMPORT, NAME, EQUAL, REQUIRE, LPAR, STRING, RPAR, optional SEMICOLON]⟩,
  ⟨moduleImport, [IMPORT, importClause, FROM, STRING, optional SEMICOLON]⟩,
  ⟨moduleImport, [IMPORT, STRING, optional SEMICOLON]⟩,
  ⟨importClause, [defaultBinding]⟩,
  ⟨importClause, [namespaceBinding]⟩,
  ⟨importClause, [namedBindings]⟩,
  ⟨importClause, [defaultBinding, COMMA, namespaceBinding]⟩,
  ⟨importClause, [defaultBinding, COMMA, namedBindings]⟩,
  ⟨defaultBinding, [NAME]⟩,
  ⟨namespaceBinding, [STAR, AS, NAME]⟩,
  ⟨namedBindings, [LBRACE, binding, optional moreBindings, optional COMMA, RBRACE]⟩,
  ⟨namedBindings, [LBRACE, RBRACE]⟩,
  ⟨moreBindings, [COMMA, binding]⟩,
  ⟨moreBindings, [moreBindings, COMMA, binding]⟩,
  ⟨binding, [NAME, AS, NAME]⟩,
  ⟨binding, [NAME]⟩,
  ⟨exportAssignment, [EXPORT, EQUAL, entityName, optional SEMICOLON]⟩,
  ⟨exportDefault, [EXPORT, DEFAULT, entityName, optional SEMICOLON]⟩,
  ⟨exportList, [EXPORT, namedBindings, FROM, STRING, optional SEMICOLON]⟩,
  ⟨exportList, [EXPORT, namedBindings, optional SEMICOLON]⟩,
  -- ambient declarations
  ⟨ambientBody, [ambientVar]⟩,
  ⟨ambientBody, [ambientFunction]⟩,
  ⟨ambientBody, [ambientClass]⟩,
  ⟨ambientBody, [ambientInterface]⟩,
  ⟨ambientBody, [ambientEnum]⟩,
  ⟨ambientBody, [ambientModule]⟩,
  ⟨ambientVar, [VAR, NAME, optional ascription, optional SEMICOLON]⟩,
  ⟨ambientVar, [LET, NAME, optional ascription, optional SEMICOLON]⟩,
  ⟨ambientVar, [CONST, NAME, optional ascription, optional SEMICOLON]⟩,
  ⟨ambientFunction, [FUNCTION, NAME, callSignature, optional SEMICOLON]⟩,
  ⟨ambientInterface, [interfaceDeclaration]⟩,
  ⟨ambientEnum,
    [optional CONST, ENUM, NAME, LBRACE, enumMember, optional moreEnumMembers, optional COMMA, RBRACE]⟩,
  ⟨ambientEnum, [optional CONST, ENUM, NAME, LBRACE, RBRACE]⟩,
  ⟨moreEnumMembers, [COMMA, enumMember]⟩,
  ⟨moreEnumMembers, [moreEnumMembers, COMMA, enumMember]⟩,
  ⟨enumMember, [propertyName, EQUAL, NUMERAL]⟩,
  ⟨enumMember, [propertyName]⟩,
  -- classes
  ⟨ambientClass,
    [CLASS, NAME, optional typeParameters, optional classExtends, optional classImplements, LBRACE,
      optional classMembers, RBRACE]⟩,
  ⟨classExtends, [EXTENDS, typeReference]⟩,
  ⟨classImplements, [IMPLEMENTS, typeReference, optional moreReferences]⟩,
  ⟨moreReferences, [COMMA, typeReference]⟩,
  ⟨moreReferences, [moreReferences, COMMA, typeReference]⟩,
  ⟨classMembers, [classMember]⟩,
  ⟨classMembers, [classMembers, classMember]⟩,
  ⟨classMember, [constructorDeclaration]⟩,
  ⟨classMember, [memberFunction]⟩,
  ⟨classMember, [memberVariable]⟩,
  ⟨classMember, [indexMember]⟩,
  ⟨constructorDeclaration,
    [optional accessibility, CONSTRUCTOR, LPAR, optional parameterList, RPAR, optional SEMICOLON]⟩,
  ⟨memberFunction,
    [optional accessibility, optional STATIC, propertyName, optional QMARK, callSignature,
      optional SEMICOLON]⟩,
  ⟨memberVariable,
    [optional accessibility, optional STATIC, propertyName, optional QMARK, optional ascription,
      optional SEMICOLON]⟩,
  ⟨accessibility, [PUBLIC]⟩,
  ⟨accessibility, [PRIVATE]⟩,
  ⟨accessibility, [PROTECTED]⟩,
  ⟨indexMember, [indexSignature, optional SEMICOLON]⟩,
  -- modules
  ⟨ambientModule, [ MODULE, moduleName, LBRACE, optional moduleElements, RBRACE]⟩,
  ⟨ambientModule, [NAMESPACE, moduleName, LBRACE, optional moduleElements, RBRACE]⟩,
  ⟨moduleName, [NAME, optional moreSegments]⟩,
  ⟨moduleName, [STRING]⟩,
  ⟨moreSegments, [DOT, NAME]⟩,
  ⟨moreSegments, [moreSegments, DOT, NAME]⟩,
  ⟨moduleElements, [moduleElement]⟩,
  ⟨moduleElements, [moduleElements, moduleElement]⟩,
  ⟨moduleElement, [moduleAmbientElement]⟩,
  ⟨moduleElement, [importAlias]⟩,
  ⟨moduleElement, [externalImport]⟩,
  ⟨moduleElement, [moduleImport]⟩,
  ⟨moduleElement, [exportAssignment]⟩,
  ⟨moduleElement, [exportDefault]⟩,
  ⟨moduleElement, [exportList]⟩,
  ⟨moduleAmbientElement, [optional EXPORT, optional DECLARE, ambientBody]⟩,
  -- interfaces and their members
  ⟨interfaceDeclaration,
    [INTERFACE, NAME, optional typeParameters, optional interfaceExtends, objectType]⟩,
  ⟨interfaceExtends, [EXTENDS, typeReference, optional moreReferences]⟩,
  ⟨objectType, [LBRACE, optional objectMembers, RBRACE]⟩,
  ⟨objectMembers, [typeMember, optional memberSeparator]⟩,
  ⟨objectMembers, [objectMembers, typeMember, optional memberSeparator]⟩,
  ⟨memberSeparator, [SEMICOLON]⟩,
  ⟨memberSeparator, [COMMA]⟩,
  ⟨typeMember, [propertySignature]⟩,
  ⟨typeMember, [methodSignature]⟩,
  ⟨typeMember, [callSignature]⟩,
  ⟨typeMember, [constructSignature]⟩,
  ⟨typeMember, [indexSignature]⟩,
  ⟨propertySignature, [propertyName, optional QMARK, optional ascription]⟩,
  ⟨methodSignature, [propertyName, optional QMARK, callSignature]⟩,
  ⟨constructSignature,
    [NEW, optional typeParameters, LPAR, optional parameterList, RPAR, optional ascription]⟩,
  ⟨indexSignature, [LSQB, NAME, COLON, typeExpr, RSQB, ascription]⟩,
  ⟨callSignature,
    [optional typeParameters, LPAR, optional parameterList, RPAR, optional ascription]⟩,
  ⟨propertyName, [NAME]⟩,
  ⟨propertyName, [STRING]⟩,
  ⟨propertyName, [NUMERAL]⟩,
  -- parameters
  ⟨parameterList, [anyParameter, optional moreParameters, optional COMMA]⟩,
  ⟨moreParameters, [COMMA, anyParameter]⟩,
  ⟨moreParameters, [moreParameters, COMMA, anyParameter]⟩,
  ⟨anyParameter, [parameter]⟩,
  ⟨anyParameter, [restParameter]⟩,
  ⟨parameter, [optional accessibility, NAME, optional QMARK, optional ascription]⟩,
  ⟨restParameter, [ELLIPSIS, NAME, optional ascription]⟩,
  ⟨typeParameters, [LESSTHAN, typeParameter, optional moreTypeParameters, MORETHAN]⟩,
  ⟨moreTypeParameters, [COMMA, typeParameter]⟩,
  ⟨moreTypeParameters, [moreTypeParameters, COMMA, typeParameter]⟩,
  ⟨typeParameter, [NAME, EXTENDS, typeExpr]⟩,
  ⟨typeParameter, [NAME]⟩,
  -- types
  ⟨ascription, [COLON, typeExpr]⟩,
  ⟨typeExpr, [primaryType]⟩,
  ⟨typeExpr, [functionType]⟩,
  ⟨typeExpr, [constructorType]⟩,
  ⟨primaryType, [predefinedType]⟩,
  ⟨primaryType, [typeReference]⟩,
  ⟨primaryType, [typeQuery]⟩,
  ⟨primaryType, [objectType]⟩,
  ⟨primaryType, [arrayType]⟩,
  ⟨predefinedType, [ANY]⟩,
  ⟨predefinedType, [NUMBER]⟩,
  ⟨predefinedType, [BOOLEAN]⟩,
  ⟨predefinedType, [STRINGTYPE]⟩,
  ⟨predefinedType, [VOID]⟩,
  ⟨typeReference, [entityName, optional typeArguments]⟩,
  ⟨typeArguments, [LESSTHAN, typeExpr, optional moreTypeArguments, MORETHAN]⟩,
  ⟨moreTypeArguments, [COMMA, typeExpr]⟩,
  ⟨moreTypeArguments, [moreTypeArguments, COMMA, typeExpr]⟩,
  ⟨typeQuery, [TYPEOF, entityName]⟩,
  ⟨arrayType, [primaryType, LSQB, RSQB]⟩,
  ⟨functionType, [optional typeParameters, LPAR, optional parameterList, RPAR, ARROW, typeExpr]⟩,
  ⟨constructorType,
    [NEW, optional typeParameters, LPAR, optional parameterList, RPAR, ARROW, typeExpr]⟩,
  ⟨entityName, [NAME, optional moreSegments]⟩]

end

/-- the plain productions of the grammar -/
@[irreducible] def productions : List Production := rules.flatMap Rule.productions

theorem mem_productions (p : Production) :
    p ∈ productions ↔ ∃ r ∈ rules, r.lhs = p.lhs ∧ Slot.Chosen r.slots p.rhs := by
  simp only [productions, List.mem_flatMap, Rule.productions, List.mem_map]
  refine ⟨?_, ?_⟩
  · rintro ⟨r, hr, rhs, h, rfl⟩
    exact ⟨r, hr, rfl, (Slot.mem_choices _ _).mp h⟩
  · rintro ⟨r, hr, h, hc⟩
    exact ⟨r, hr, p.rhs, (Slot.mem_choices _ _).mpr hc, by cases p; cases h; rfl⟩

example : productions.length = 298 := by decide +kernel

end Typings
