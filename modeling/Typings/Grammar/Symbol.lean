import Typings.Grammar.Terminal
/-!
# Symbols and productions

* `Nonterminal`           the phrases of the declaration grammar;
* `Nonterminal.shape`     how a phrase shows in the syntax tree;
* `Nonterminal.label?`    the label of its tree nodes;
* `Symbol`                a terminal or a nonterminal;
* `Production`            one way to write a phrase.
-/

namespace Typings

/-- a phrase of the declaration grammar; those from `fileElements` on are the repetitions inside
other phrases -/
inductive Nonterminal where
  | file | element | interfaceElement | ambientElement
  | importAlias | externalImport | moduleImport | importClause | defaultBinding
  | namespaceBinding | namedBindings | binding | exportAssignment | exportDefault | exportList
  | ambientBody | ambientVar | ambientFunction | ambientInterface | ambientEnum | enumMember
  | ambientClass | classExtends | classImplements | classMember | constructorDeclaration
  | memberFunction | memberVariable | accessibility | indexMember
  | ambientModule | moduleName | moduleElement | moduleAmbientElement
  | interfaceDeclaration | interfaceExtends | objectType | memberSeparator | typeMember
  | propertySignature | methodSignature | constructSignature | indexSignature | callSignature
  | propertyName | parameterList | anyParameter | parameter | restParameter
  | typeParameters | typeParameter | ascription | typeExpr | primaryType | predefinedType
  | typeReference | typeArguments | typeQuery | arrayType | functionType | constructorType
  | entityName
  | fileElements | moreBindings | moreEnumMembers | classMembers | moreReferences
  | moduleElements | moreSegments | objectMembers | moreParameters | moreTypeParameters
  | moreTypeArguments
deriving DecidableEq, Inhabited

/-- how a phrase shows in the syntax tree -/
inductive Shape where
  /-- as a node of its own -/
  | node
  /-- as its one child, or as a node if it does not have exactly one -/
  | transparent
  /-- as its children, in the place of the phrase -/
  | spliced
deriving DecidableEq

namespace Nonterminal

/-- every nonterminal, in the order of their declaration -/
def all : List Nonterminal := [
  file, element, interfaceElement, ambientElement,
  importAlias, externalImport, moduleImport, importClause, defaultBinding,
  namespaceBinding, namedBindings, binding, exportAssignment, exportDefault, exportList,
  ambientBody, ambientVar, ambientFunction, ambientInterface, ambientEnum, enumMember,
  ambientClass, classExtends, classImplements, classMember, constructorDeclaration,
  memberFunction, memberVariable, accessibility, indexMember,
  ambientModule, moduleName, moduleElement, moduleAmbientElement,
  interfaceDeclaration, interfaceExtends, objectType, memberSeparator, typeMember,
  propertySignature, methodSignature, constructSignature, indexSignature, callSignature,
  propertyName, parameterList, anyParameter, parameter, restParameter,
  typeParameters, typeParameter, ascription, typeExpr, primaryType, predefinedType,
  typeReference, typeArguments, typeQuery, arrayType, functionType, constructorType,
  entityName,
  fileElements, moreBindings, moreEnumMembers, classMembers, moreReferences,
  moduleElements, moreSegments, objectMembers, moreParameters, moreTypeParameters,
  moreTypeArguments]

/-- how the phrase shows in the syntax tree -/
def shape : Nonterminal → Shape
  | element | importClause | ambientBody | classMember | moduleElement | typeMember | propertyName
  | typeExpr | primaryType => .transparent
  | memberSeparator | anyParameter | fileElements | moreBindings | moreEnumMembers | classMembers
  | moreReferences | moduleElements | moreSegments | objectMembers | moreParameters
  | moreTypeParameters | moreTypeArguments => .spliced
  | _ => .node

/-- the label of the tree nodes of a phrase; none if it never has a node -/
def label? : Nonterminal → Option String
  | file => "start" | element => "declaration_element" | interfaceElement => "interface_element"
  | ambientElement => "ambient_element" | importAlias => "import_alias"
  | externalImport => "external_import" | moduleImport => "es_import"
  | importClause => "es_import_clause" | defaultBinding => "es_default_binding"
  | namespaceBinding => "es_namespace_binding" | namedBindings => "es_named_bindings"
  | binding => "es_specifier" | exportAssignment => "export_assignment"
  | exportDefault => "export_default" | exportList => "export_list"
  | ambientBody => "ambient_body" | ambientVar => "ambient_var"
  | ambientFunction => "ambient_function" | ambientInterface => "ambient_interface"
  | ambientEnum => "ambient_enum" | enumMember => "enum_member" | ambientClass => "ambient_class"
  | classExtends => "class_extends" | classImplements => "class_implements"
  | classMember => "class_member" | constructorDeclaration => "constructor_declaration"
  | memberFunction => "member_function" | memberVariable => "member_variable"
  | accessibility => "accessibility" | indexMember => "index_member"
  | ambientModule => "ambient_module" | moduleName => "module_name"
  | moduleElement => "module_element" | moduleAmbientElement => "module_ambient_element"
  | interfaceDeclaration => "interface_declaration" | interfaceExtends => "interface_extends"
  | objectType => "object_type" | typeMember => "type_member"
  | propertySignature => "property_signature" | methodSignature => "method_signature"
  | constructSignature => "construct_signature" | indexSignature => "index_signature"
  | callSignature => "call_signature" | propertyName => "property_name"
  | parameterList => "parameter_list" | parameter => "parameter"
  | restParameter => "rest_parameter" | typeParameters => "type_parameters"
  | typeParameter => "type_parameter" | ascription => "type_annotation" | typeExpr => "type"
  | primaryType => "primary_type" | predefinedType => "predefined_type"
  | typeReference => "type_reference" | typeArguments => "type_arguments"
  | typeQuery => "type_query" | arrayType => "array_type" | functionType => "function_type"
  | constructorType => "constructor_type" | entityName => "entity_name"
  | memberSeparator | anyParameter | fileElements | moreBindings | moreEnumMembers | classMembers
  | moreReferences | moduleElements | moreSegments | objectMembers | moreParameters
  | moreTypeParameters | moreTypeArguments => none

/-- the phrase whose tree nodes have a label -/
def ofLabel? (s : String) : Option Nonterminal := all.find? fun n => n.label? == some s

theorem mem_all (n : Nonterminal) : n ∈ all := by cases n <;> decide

/-- a phrase has a label unless its children always take its place -/
theorem label?_isSome (n : Nonterminal) : n.label?.isSome = (n.shape != .spliced) := by
  cases n <;> rfl

end Nonterminal

/-- a terminal or a nonterminal -/
inductive Symbol where
  | terminal (t : Terminal)
  | nonterminal (n : Nonterminal)
deriving DecidableEq, Inhabited

namespace Symbol

instance : Coe Terminal Symbol := ⟨terminal⟩

instance : Coe Nonterminal Symbol := ⟨nonterminal⟩

/-- every symbol, the terminals first -/
def all : List Symbol := Terminal.all.map terminal ++ Nonterminal.all.map nonterminal

theorem mem_all (s : Symbol) : s ∈ all := by
  cases s <;> simp [all, Terminal.mem_all, Nonterminal.mem_all]

theorem nodup_all : all.Nodup := by with_unfolding_all decide

end Symbol

/-- one way to write a phrase -/
structure Production where
  lhs : Nonterminal
  rhs : List Symbol
deriving DecidableEq, Inhabited

end Typings
