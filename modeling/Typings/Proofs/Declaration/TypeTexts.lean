import Typings.Proofs.Syntax.Writing
/-!
# Types in writing

What is printed of a type can be written as a phrase of the grammar, and the type is read back from the
trees of the phrase, at the first place.  Here this is shown for each kind of type, parameter and signature,
if it is so of the parts.

* `ReadsBack build n text a`      a text can be written as the phrase `n`, and is read as `a`;
* `ReadsBack.series`, `angled`    several phrases of a kind, with commas between them;
* `TypeExpr.ReadsBack`, `Param.ReadsBack`, `TypeParam.ReadsBack`   what is printed is read back;
* `Signature.ReadsBack`           the same for what stands behind the name of a method.
-/

namespace Typings
open Terminal Nonterminal Typings.Tree

/-! ## Parts of a kind -/

/-- a row of trees is read as one part, whatever is behind it -/
def Tree.ReadsAs {α : Type} (build : List Tree → Except BuildError (List α)) (ts : List Tree) (a : α) : Prop :=
  ∀ rest l, build rest = .ok l → build (ts ++ rest) = .ok (a :: l)

/-- a row of trees holds some parts: it is empty if there is none, else it is one phrase -/
def Tree.Holds {α : Type} (build : List Tree → Except BuildError (List α)) (n : Nonterminal) (ts : List Tree)
    (l : List α) : Prop :=
  (ts = [] ∧ l = []) ∨ ∃ cs, ts = [.node (.phrase n) Cursor.start.loc cs] ∧ build cs = .ok l

/-- a text can be written as a phrase, and is read as a part -/
def ReadsBack {α : Type} (build : List Tree → Except BuildError (List α)) (n : Nonterminal) (text : Text)
    (a : α) : Prop :=
  ∃ ts, Writes (Symbol.nonterminal n).openingWords [.nonterminal n] text ts ∧ ReadsAs build ts a

section
variable {α β : Type} {build : List Tree → Except BuildError (List α)} {n m part : Nonterminal}

/-- rows of trees that are read as one part each -/
theorem Tree.readsAs_flatMap (empty : build [] = .ok []) {l : List β} {trees : β → List Tree} {g : β → α}
    (each : ∀ b ∈ l, ReadsAs build (trees b) (g b)) : build (l.flatMap trees) = .ok (l.map g) := by
  induction l with
  | nil => exact empty
  | cons b l ih =>
    obtain ⟨here, further⟩ := List.forall_mem_cons.mp each
    exact here _ _ (ih further)

variable (sep : Derivation.Separates m COMMA (.nonterminal part)) (empty : build [] = .ok [])
  {l : List β} {f : β → Text} {g : β → α} (each : ∀ b ∈ l, ReadsBack build part (f b) (g b))
include sep empty each

/-- phrases of a kind with commas between them -/
theorem ReadsBack.series (some : l ≠ []) :
    ∃ symbols ∈ ([[part], [part, m]] : List (List Symbol)), ∃ ts,
      Writes (Symbol.nonterminal part).openingWords symbols (Text.join ", " (l.map f)) ts ∧
        build ts = .ok (l.map g) := by
  choose! trees writes reads using each
  obtain ⟨symbols, mem, writes⟩ := Writes.series sep writes some
  exact ⟨symbols, mem, _, writes, readsAs_flatMap empty reads⟩

/-- phrases of a kind in angle brackets -/
theorem ReadsBack.angled (isNode : n.shape = .node) (free : (Symbol.nonterminal n).openingWords = [])
    (rows : ∀ roots ∈ ([[part], [part, m]] : List (List Symbol)),
      .terminal LESSTHAN :: (roots ++ [.terminal MORETHAN]) ∈ n.rows) :
    ∃ symbols ∈ Symbol.perhaps n, ∃ ts,
      (∀ words, Writes words symbols (Text.angled (l.map f)) ts) ∧ Holds build n ts (l.map g) := by
  cases l with
  | nil => exact ⟨_, List.mem_cons_self, [], fun _ => .nil _, .inl ⟨rfl, rfl⟩⟩
  | cons b l =>
    obtain ⟨symbols, mem, ts, writes, reads⟩ := ReadsBack.series sep empty each (List.cons_ne_nil _ _)
    refine ⟨_, List.mem_cons_of_mem _ List.mem_cons_self, _, fun words => ?_, .inr ⟨ts, rfl, reads⟩⟩
    have isMore : MORETHAN.spelling? = some ">" := rfl
    have isLess : LESSTHAN.spelling? = some "<" := rfl
    have inner := writes.append (.closing isMore rfl _) (Text.apart_cons (by decide) _)
    have whole := (inner.punctuation isLess rfl words).node (rows symbols mem)
      (by rw [free]; exact List.nil_subset _) isNode
    rwa [List.append_nil, ← List.append_assoc] at whole

end

theorem Text.apart_angled (parts : List Text) : (angled parts).Apart := by
  cases parts with
  | nil => exact apart_nil
  | cons => exact apart_cons (by decide) _

theorem Text.apart_behind_colon (t : Option Text) : (behind ": " t).Apart := by
  cases t with
  | none => exact apart_nil
  | some => exact apart_cons (by decide) _

/-! ## Types -/

namespace TypeExpr

/-- the phrase that a type is, under the phrase for any type -/
def form : TypeExpr → Nonterminal
  | .function .. => functionType
  | .construct .. => constructorType
  | _ => primaryType

/-- what is printed of a type can be written as its phrase, and is read as the type at the first place -/
def ReadsBack (t : TypeExpr) : Prop :=
  ∃ label cs, Writes typeWords [.nonterminal t.form] t.render [.node label Cursor.start.loc cs] ∧
    label.isType = true ∧ ofTree (.node label Cursor.start.loc cs) = .ok (t.moved Loc.first)

/-- the phrase for any type -/
theorem writes_typeExpr {t : TypeExpr} {text : Text} {tree : Tree}
    (h : Writes typeWords [.nonterminal t.form] text [tree]) : Writes typeWords [.nonterminal typeExpr] text [tree] := by
  refine h.transparent ?_ (List.Subset.refl _) rfl
  cases t <;> simp [form, rows]

/-- a row of types -/
theorem ReadsBack.part {t : TypeExpr} (h : t.ReadsBack) :
    Typings.ReadsBack ofTrees typeExpr t.render (t.moved Loc.first) := by
  obtain ⟨label, cs, writes, _, reads⟩ := h
  refine ⟨_, writes_typeExpr writes, fun rest l further => ?_⟩
  rw [List.singleton_append, ofTrees, reads, further]
  rfl

/-- a row of trees is empty, or a type behind a colon -/
def Ascribes (ts : List Tree) (type : Option TypeExpr) : Prop :=
  (ts = [] ∧ type = none) ∨ ∃ cs t, ts = [.node (.phrase ascription) Cursor.start.loc cs] ∧
    firstIn? cs = some (.ok t) ∧ type = some t

/-- a colon and a type -/
theorem ReadsBack.typed {t : TypeExpr} (h : t.ReadsBack) : ∃ cs,
    (∀ words, Writes words [.nonterminal ascription] (Text.ofString ": " ++ t.render)
      [.node (.phrase ascription) Cursor.start.loc cs]) ∧ firstIn? cs = some (.ok (t.moved Loc.first)) := by
  obtain ⟨label, cs, writes, _, reads⟩ := h
  have isColon : COLON.spelling? = some ":" := rfl
  refine ⟨[.node label Cursor.start.loc cs], fun words => ?_, by rw [firstIn?, reads]⟩
  have row := ((writes_typeExpr writes).spaced (List.cons_ne_nil _ _)).punctuation isColon rfl words
  exact row.node (by decide) (List.nil_subset _) rfl

/-- a colon and a type, if there is one -/
theorem writes_ascription {type : Option TypeExpr} (h : ∀ t ∈ type, t.ReadsBack) :
    ∃ symbols ∈ Symbol.perhaps ascription, ∃ ts,
      (∀ words, Writes words symbols (Text.behind ": " (render? type)) ts) ∧
        Ascribes ts (movedOption Loc.first type) := by
  cases type with
  | none => exact ⟨_, List.mem_cons_self, [], fun _ => .nil _, .inl ⟨rfl, rfl⟩⟩
  | some t =>
    obtain ⟨cs, writes, first⟩ := (h t rfl).typed
    exact ⟨_, List.mem_cons_of_mem _ List.mem_cons_self, _, writes, .inr ⟨cs, _, rfl, first, rfl⟩⟩

namespace Ascribes
variable {ts : List Tree} {type : Option TypeExpr} (h : Ascribes ts type)
include h

theorem ascriptionIn : TypeExpr.ascriptionIn ts = .ok type := by
  rcases h with ⟨rfl, rfl⟩ | ⟨cs, t, rfl, first, rfl⟩
  · rw [TypeExpr.ascriptionIn]
  · rw [TypeExpr.ascriptionIn, if_pos rfl, first]
    rfl

theorem token?_none (k : Terminal) : token? k ts = none := by
  rcases h with ⟨rfl, _⟩ | ⟨_, _, rfl, _⟩ <;> rfl

theorem child?_ne {n : Nonterminal} (other : n ≠ ascription) : child? n ts = none := by
  rcases h with ⟨rfl, _⟩ | ⟨_, _, rfl, _⟩
  · rfl
  · rw [child?, if_neg (fun e => other (Label.phrase.inj e).symm), child?]

end Ascribes

section
variable {loc : Loc}

/-- `any`, `number`, `boolean`, `string` or `void` -/
theorem readsBack_predefined {k : Terminal} {spelling : String} (word : k ∈ predefinedWords)
    (spelled : k.spelling? = some spelling) : ReadsBack (.predefined loc spelling) := by
  have each : ∀ k ∈ predefinedWords, [.terminal k] ∈ predefinedType.rows ∧ k ≠ .EQUAL ∧ k.isKept = true := by
    decide
  obtain ⟨isRow, other, shows⟩ := each k word
  have row := (Writes.nil []).mark spelled other shows Text.not_begins_nil typeWords
  rw [List.append_nil] at row
  have type := (row.node isRow (List.nil_subset _) rfl).transparent (n := primaryType) (by decide)
    (List.nil_subset _) rfl
  refine ⟨_, _, type, rfl, ?_⟩
  rw [ofTree, headText]
  rfl

theorem renderAll_eq_map (ts : List TypeExpr) : renderAll ts = ts.map render := by
  induction ts with
  | nil => rfl
  | cons t ts ih => rw [renderAll, ih, List.map_cons]

theorem movedAll_eq_map (f : Loc → Loc) (ts : List TypeExpr) : movedAll f ts = ts.map (moved f) := by
  induction ts with
  | nil => rfl
  | cons t ts ih => rw [movedAll, ih, List.map_cons]

/-- a name with type arguments -/
theorem readsBack_reference {first : Text} {more : List Text} {args : List TypeExpr}
    (names : ∀ n ∈ first :: more, n.isName = true) (free : ∀ u ∈ typeWords, u.isWord first = false)
    (h : ∀ t ∈ args, t.ReadsBack) : ReadsBack (.reference loc (Text.join "." (first :: more)) args) := by
  have rows : ∀ roots ∈ ([[typeExpr], [typeExpr, moreTypeArguments]] : List (List Symbol)),
      .terminal LESSTHAN :: (roots ++ [.terminal MORETHAN]) ∈ typeArguments.rows := by
    decide
  have empty : ofTrees [] = .ok [] := by rw [ofTrees]
  obtain ⟨symbols, mem, ts, writes, holds⟩ := ReadsBack.angled (.of_mem (by decide)) empty
    (fun t ht => (h t ht).part) rfl rfl rows
  have row := (Writes.entity names free).append (writes typeWords) (Text.apart_angled _)
  have type := (row.node (n := typeReference) (List.mem_map_of_mem mem) (List.nil_subset _) rfl).transparent
    (n := primaryType) (by decide) (List.nil_subset _) rfl
  rw [← renderAll_eq_map] at type
  refine ⟨_, _, type, rfl, ?_⟩
  have arguments : argumentsIn ts = .ok (args.map (moved Loc.first)) := by
    rcases holds with ⟨rfl, e⟩ | ⟨cs, rfl, reads⟩
    · rw [e, argumentsIn]
    · rw [argumentsIn, if_pos rfl, reads]
  rw [ofTree, List.singleton_append, entity_names, argumentsIn, if_neg (by decide), arguments, moved,
    movedAll_eq_map]
  rfl

/-- the type of a named value -/
theorem readsBack_query {first : Text} {more : List Text} (names : ∀ n ∈ first :: more, n.isName = true) :
    ReadsBack (.query loc (Text.join "." (first :: more))) := by
  have isTypeof : TYPEOF.spelling? = some "typeof" := rfl
  have name := Writes.entity names (Writes.free_nil first)
  have row := (name.spaced (List.cons_ne_nil _ _)).sign isTypeof nofun rfl
    (Text.not_begins_cons (goesOn_space _) _) typeWords
  have type := (row.node (n := typeQuery) (by decide) (List.nil_subset _) rfl).transparent (n := primaryType)
    (by decide) (List.nil_subset _) rfl
  refine ⟨_, _, type, rfl, ?_⟩
  rw [ofTree, entity_names]
  rfl

/-- a type with brackets behind it -/
theorem readsBack_array {element : TypeExpr} (primary : element.form = primaryType) (h : element.ReadsBack) :
    ReadsBack (.array loc element) := by
  obtain ⟨label, cs, writes, _, reads⟩ := h
  rw [primary] at writes
  have isLeft : LSQB.spelling? = some "[" := rfl
  have isRight : RSQB.spelling? = some "]" := rfl
  have brackets := (Writes.closing isRight rfl []).punctuation isLeft rfl typeWords
  have row := writes.append brackets (Text.apart_cons (by decide) _)
  have type := (row.node (n := arrayType) (by decide) (List.nil_subset _) rfl).transparent (n := primaryType)
    (by decide) (List.nil_subset _) rfl
  have first : firstIn? ([.node label Cursor.start.loc cs] ++ []) = some (.ok (element.moved Loc.first)) := by
    rw [List.append_nil, firstIn?, reads]
  refine ⟨_, _, type, rfl, ?_⟩
  rw [ofTree, first]
  rfl

end

end TypeExpr

/-! ## Type parameters and parameters -/

/-- a name, and a type that bounds it -/
theorem TypeParam.readsBack {name : Text} {bound : Option TypeExpr} (isName : name.isName = true)
    (h : ∀ t ∈ bound, t.ReadsBack) :
    ReadsBack TypeParam.ofTrees typeParameter (render (.mk name bound)) (moved Loc.first (.mk name bound)) := by
  cases bound with
  | none =>
    have row := (Writes.nil []).name isName (Writes.free_nil name) Text.apart_nil
    refine ⟨_, row.node (by decide) (List.Subset.refl _) rfl, fun rest l further => ?_⟩
    have token : Tree.token (.phrase typeParameter) Cursor.start.loc NAME
      [.leaf (some NAME) name Cursor.start.loc] = .ok name := rfl
    rw [List.singleton_append, ofTrees, if_pos rfl, token, TypeExpr.firstIn?, TypeExpr.firstIn?, further]
    rfl
  | some t =>
    obtain ⟨label, cs, writes, _, reads⟩ := h t rfl
    have isExtends : EXTENDS.spelling? = some "extends" := rfl
    have type := ((TypeExpr.writes_typeExpr writes).spaced (List.cons_ne_nil _ _)).sign isExtends (by decide) rfl
      (Text.not_begins_cons (goesOn_space _) _) []
    have row := (type.spaced (List.cons_ne_nil _ _)).name isName (Writes.free_nil name)
      (Text.apart_cons (by decide) _)
    refine ⟨_, row.node (by decide) (List.Subset.refl _) rfl, fun rest l further => ?_⟩
    have token : Tree.token (.phrase typeParameter) Cursor.start.loc NAME
      [.leaf (some NAME) name Cursor.start.loc, .node label Cursor.start.loc cs] = .ok name := rfl
    rw [List.singleton_append, ofTrees, if_pos rfl, token, TypeExpr.firstIn?, TypeExpr.firstIn?, reads, further]
    rfl

/-- a question mark, if there is one -/
def Tree.question (optional : Bool) : List Tree :=
  if optional then [.leaf (some QMARK) "?" Cursor.start.loc] else []

theorem Tree.question_passes (optional : Bool) (n : Nonterminal) : child? n (question optional) = none := by
  cases optional <;> rfl

theorem Tree.hasToken_question {optional : Bool} {ts : List Tree} (none : token? QMARK ts = none) :
    hasToken QMARK (question optional ++ ts) = optional := by
  cases optional with
  | true => rfl
  | false => exact congrArg Option.isSome none

/-- a question mark and a type behind a name, each if there is one -/
theorem TypeExpr.writes_optional (optional : Bool) {type : Option TypeExpr} (h : ∀ t ∈ type, t.ReadsBack) :
    ∃ symbols ∈ Symbol.optionals, ∃ ts,
      (∀ words, Writes words symbols (Text.when optional "?" ++ Text.behind ": " (render? type))
        (question optional ++ ts)) ∧ Ascribes ts (movedOption Loc.first type) ∧
      (Text.when optional "?" ++ Text.behind ": " (render? type)).Apart := by
  have apart := Text.apart_behind_colon (render? type)
  obtain ⟨symbols, mem, ts, writes, ascribes⟩ := writes_ascription h
  cases optional with
  | false =>
    refine ⟨symbols, ?_, ts, writes, ascribes, apart⟩
    exact List.mem_append_left [[.terminal QMARK], [.terminal QMARK, .nonterminal ascription]] mem
  | true =>
    have isQuestion : QMARK.spelling? = some "?" := rfl
    refine ⟨.terminal QMARK :: symbols, ?_, ts, fun words => ?_, ascribes, Text.apart_cons (by decide) _⟩
    · exact List.mem_append_right [[], [.nonterminal ascription]] (List.mem_map_of_mem (f := (_ :: ·)) mem)
    · exact (writes []).mark isQuestion nofun rfl (apart.not_begins nofun) words

/-- what a parameter is read from: a name, with what may be in front of it and behind it -/
theorem Param.readsAs_single {a ts : List Tree} {name : Text} {type : Option TypeExpr} {optional : Bool}
    {accessibility : Option Text} (nameless : token? NAME a = none) (quiet : token? QMARK a = none)
    (bare : child? .ascription a = none)
    (marked : Tree.accessibility (a ++ .leaf (some NAME) name Cursor.start.loc ::
      (question optional ++ ts)) = .ok accessibility)
    (ascribes : TypeExpr.Ascribes ts type) :
    ReadsAs ofTrees [.node (.phrase parameter) Cursor.start.loc
      (a ++ .leaf (some NAME) name Cursor.start.loc :: (question optional ++ ts))]
      (.single Cursor.start.loc name type optional accessibility) := by
  intro rest l further
  have token : Tree.token (.phrase parameter) Cursor.start.loc NAME
      (a ++ .leaf (some NAME) name Cursor.start.loc :: (question optional ++ ts)) = .ok name := by
    rw [Tree.token, token?_append, nameless]
    rfl
  have typed : TypeExpr.ascriptionIn
      (a ++ .leaf (some NAME) name Cursor.start.loc :: (question optional ++ ts)) = .ok type := by
    rw [TypeExpr.ascriptionIn_append bare, TypeExpr.ascriptionIn,
      TypeExpr.ascriptionIn_append (question_passes optional _), ascribes.ascriptionIn]
  have mark : hasToken QMARK
      (a ++ .leaf (some NAME) name Cursor.start.loc :: (question optional ++ ts)) = optional := by
    rw [hasToken, token?_append, quiet]
    exact hasToken_question (ascribes.token?_none _)
  rw [List.singleton_append, ofTrees, token, typed, marked, mark, further]
  rfl

namespace Param

/-- what is printed of a parameter can be written as one, and is read as the parameter at the first place -/
def ReadsBack (p : Param) : Prop :=
  Typings.ReadsBack ofTrees anyParameter p.render (p.moved Loc.first)

section
variable {loc : Loc} {name : Text} {type : Option TypeExpr} {optional : Bool}

/-- a parameter that may be called from everywhere -/
theorem readsBack_plain (isName : name.isName = true) (free : ∀ u ∈ accessWords, u.isWord name = false)
    (h : ∀ t ∈ type, t.ReadsBack) : ReadsBack (.single loc name type optional none) := by
  obtain ⟨symbols, mem, ts, writes, ascribes, apart⟩ := TypeExpr.writes_optional optional h
  have row := (writes []).name isName free apart
  have phrase := (row.node (n := parameter) (List.mem_map_of_mem mem) (List.Subset.refl _) rfl).spliced
    (n := anyParameter) (by decide) (List.Subset.refl _) rfl
  rw [← List.append_assoc] at phrase
  have unmarked : Tree.accessibility (.leaf (some NAME) name Cursor.start.loc :: (question optional ++ ts)) =
      .ok none := by
    rw [Tree.accessibility, child?, child?_append, question_passes, ascribes.child?_ne (by decide)]
    rfl
  exact ⟨_, phrase, readsAs_single (a := []) rfl rfl rfl unmarked ascribes⟩

/-- a parameter with a keyword that says who may see it -/
theorem readsBack_marked {k : Terminal} {spelling : String} (access : k ∈ accessWords)
    (spelled : k.spelling? = some spelling) (isName : name.isName = true)
    (free : ∀ u ∈ [STATIC, CONSTRUCTOR], u.isWord name = false) (h : ∀ t ∈ type, t.ReadsBack) :
    ReadsBack (.single loc name type optional (some spelling)) := by
  obtain ⟨symbols, mem, ts, writes, ascribes, apart⟩ := TypeExpr.writes_optional optional h
  have phrase := (Writes.marked access spelled isName free mem (writes []) apart).spliced (n := anyParameter)
    (by decide) (List.Subset.refl _) rfl
  have spaced : Text.spaced (some (Text.ofString spelling)) = Text.ofString spelling ++ Text.ofString " " := by
    obtain ⟨x, rest, e, _⟩ := spelling_first spelled
    rw [e]
    rfl
  rw [← List.append_assoc, ← List.append_assoc, ← List.append_assoc, ← spaced] at phrase
  exact ⟨_, phrase, readsAs_single rfl rfl rfl rfl ascribes⟩

/-- the parameter behind an ellipsis -/
theorem readsBack_rest (isName : name.isName = true) (h : ∀ t ∈ type, t.ReadsBack) :
    ReadsBack (.rest loc name type) := by
  have isEllipsis : ELLIPSIS.spelling? = some "..." := rfl
  obtain ⟨symbols, mem, ts, writes, ascribes⟩ := TypeExpr.writes_ascription h
  have named := (writes []).name isName (Writes.free_nil name) (Text.apart_behind_colon _)
  have row := named.punctuation isEllipsis rfl accessWords
  have phrase := (row.node (n := restParameter) (List.mem_map_of_mem mem) (List.nil_subset _) rfl).spliced
    (n := anyParameter) (by decide) (List.Subset.refl _) rfl
  rw [← List.append_assoc] at phrase
  refine ⟨_, phrase, fun rest l further => ?_⟩
  have token : Tree.token (.phrase restParameter) Cursor.start.loc NAME
    (.leaf (some NAME) name Cursor.start.loc :: ts) = .ok name := rfl
  rw [List.singleton_append, ofTrees, token, TypeExpr.ascriptionIn, ascribes.ascriptionIn, further]
  rfl

end

theorem renderAll_eq_map (ps : List Param) : renderAll ps = ps.map render := by
  induction ps with
  | nil => rfl
  | cons p ps ih => rw [renderAll, ih, List.map_cons]

/-- a list of parameters -/
theorem writes_list {ps : List Param} (h : ∀ p ∈ ps, p.ReadsBack) :
    ∃ symbols ∈ Symbol.perhaps parameterList, ∃ ts,
      Writes accessWords symbols (Text.join ", " (renderAll ps)) ts ∧
        Holds ofTrees parameterList ts (movedAll Loc.first ps) := by
  rw [renderAll_eq_map, movedAll_eq_map]
  cases ps with
  | nil => exact ⟨_, List.mem_cons_self, [], .nil _, .inl ⟨rfl, rfl⟩⟩
  | cons p ps =>
    have empty : ofTrees [] = .ok [] := by rw [ofTrees]
    obtain ⟨symbols, mem, ts, writes, reads⟩ := ReadsBack.series (m := moreParameters) (.of_mem (by decide)) empty h
      (List.cons_ne_nil _ _)
    exact ⟨_, List.mem_cons_of_mem _ List.mem_cons_self, _,
      writes.node mem (List.Subset.refl _) rfl, .inr ⟨ts, rfl, reads⟩⟩

end Param

namespace TypeParam

theorem renderAll_eq_map (ps : List TypeParam) : renderAll ps = ps.map render := by
  induction ps with
  | nil => rfl
  | cons p ps ih => rw [renderAll, ih, List.map_cons]

theorem movedAll_eq_map (f : Loc → Loc) (ps : List TypeParam) : movedAll f ps = ps.map (moved f) := by
  induction ps with
  | nil => rfl
  | cons p ps ih => rw [movedAll, ih, List.map_cons]

/-- what is printed of a type parameter can be written as one, and is read as it -/
def ReadsBack (p : TypeParam) : Prop :=
  Typings.ReadsBack ofTrees typeParameter p.render (p.moved Loc.first)

/-- type parameters in angle brackets, if there are some -/
theorem writes_list {ps : List TypeParam} (h : ∀ p ∈ ps, p.ReadsBack) :
    ∃ symbols ∈ Symbol.perhaps typeParameters, ∃ ts,
      (∀ words, Writes words symbols (Text.angled (renderAll ps)) ts) ∧
        Holds ofTrees typeParameters ts (movedAll Loc.first ps) := by
  have rows : ∀ roots ∈ ([[typeParameter], [typeParameter, moreTypeParameters]] : List (List Symbol)),
      .terminal LESSTHAN :: (roots ++ [.terminal MORETHAN]) ∈ typeParameters.rows := by
    decide
  have empty : ofTrees [] = .ok [] := by rw [ofTrees]
  rw [renderAll_eq_map, movedAll_eq_map]
  exact ReadsBack.angled (.of_mem (by decide)) empty h rfl rfl rows

end TypeParam

/-! ## Signatures and function types -/

/-- type parameters, parameters in parentheses, and what is behind them -/
theorem Writes.call {words more : List Terminal} {a b tail : List Symbol} {s t u : Text} {ts us vs : List Tree}
    (typeParams : Writes words a s ts) (params : Writes accessWords b t us) (behind : Writes more tail u vs) :
    Writes words (a ++ .terminal LPAR :: (b ++ .terminal RPAR :: tail))
      (s ++ (Text.ofString "(" ++ (t ++ (Text.ofString ")" ++ u)))) (ts ++ (us ++ vs)) := by
  have isLeft : LPAR.spelling? = some "(" := rfl
  have isRight : RPAR.spelling? = some ")" := rfl
  have inner := params.append (behind.punctuation isRight rfl _) (Text.apart_cons (by decide) _)
  exact typeParams.append (inner.punctuation isLeft rfl _) (Text.apart_cons (by decide) _)

theorem Tree.Holds.child?_ne {α : Type} {build : List Tree → Except BuildError (List α)} {n part : Nonterminal}
    {ts : List Tree} {l : List α} (h : Holds build n ts l) (other : n ≠ part) : child? part ts = none := by
  rcases h with ⟨rfl, _⟩ | ⟨_, rfl, _⟩
  · rfl
  · rw [child?, if_neg (fun e => other (Label.phrase.inj e)), child?]

namespace Signature

/-- what is printed of a signature can be written as the row behind a name, and is read as the signature -/
def ReadsBack (s : Signature) : Prop :=
  ∃ symbols ∈ (Symbol.perhaps ascription).flatMap Symbol.calls, ∃ ts,
    (∀ words, Writes words symbols s.render ts) ∧ ofRow ts = .ok (s.moved Loc.first) ∧ s.render.Apart

section
variable {ts us : List Tree} {typeParams : List TypeParam} {params : List Param}

theorem headsIn_typeParams (h : Holds TypeParam.ofTrees typeParameters ts typeParams) (rest : List Tree) :
    headsIn ([], params) (ts ++ rest) = headsIn (typeParams, params) rest := by
  rcases h with ⟨rfl, rfl⟩ | ⟨cs, rfl, reads⟩
  · rfl
  · rw [List.singleton_append, headsIn, if_pos rfl, reads]
    rfl

theorem headsIn_params (h : Holds Param.ofTrees parameterList ts params) (rest : List Tree) :
    headsIn (typeParams, []) (ts ++ rest) = headsIn (typeParams, params) rest := by
  rcases h with ⟨rfl, rfl⟩ | ⟨cs, rfl, reads⟩
  · rfl
  · rw [List.singleton_append, headsIn, if_neg (by decide), if_pos rfl, reads]
    rfl

theorem headsIn_ascription {type : Option TypeExpr} (h : TypeExpr.Ascribes ts type)
    (heads : List TypeParam × List Param) : headsIn heads ts = .ok heads := by
  rcases h with ⟨rfl, _⟩ | ⟨_, _, rfl, _⟩
  · rw [headsIn]
  · rw [headsIn, if_neg (by decide), if_neg (by decide), headsIn]

end

theorem readsBack {typeParams : List TypeParam} {params : List Param} {result : Option TypeExpr}
    (hp : ∀ p ∈ typeParams, p.ReadsBack) (hq : ∀ p ∈ params, p.ReadsBack) (hr : ∀ t ∈ result, t.ReadsBack) :
    ReadsBack (.mk typeParams params result) := by
  obtain ⟨a, ha, ts, writes, heads⟩ := TypeParam.writes_list hp
  obtain ⟨b, hb, us, writes', holds⟩ := Param.writes_list hq
  obtain ⟨c, hc, vs, writes'', ascribes⟩ := TypeExpr.writes_ascription hr
  refine ⟨_, List.mem_flatMap.mpr ⟨c, hc, Symbol.mem_calls ha hb c⟩, ts ++ (us ++ vs), fun words => ?_, ?_, ?_⟩
  · have row := (writes words).call writes' (writes'' [])
    rw [render]
    simp only [List.append_assoc]
    exact row
  · have typed : TypeExpr.ascriptionIn (ts ++ (us ++ vs)) = .ok (TypeExpr.movedOption Loc.first result) := by
      rw [TypeExpr.ascriptionIn_append (heads.child?_ne (by decide)),
        TypeExpr.ascriptionIn_append (holds.child?_ne (by decide)), ascribes.ascriptionIn]
    rw [ofRow, headsIn_typeParams heads, headsIn_params holds, headsIn_ascription ascribes, typed]
    rfl
  · rw [render]
    simp only [List.append_assoc]
    exact (Text.apart_angled _).append (Text.apart_cons (by decide) _)

end Signature

namespace FunctionParts
variable {ts : List Tree} {parts : FunctionParts}

theorem ofTrees_typeParams {typeParams : List TypeParam} (h : Holds TypeParam.ofTrees typeParameters ts typeParams)
    (rest : List Tree) : ofTrees {} (ts ++ rest) = ofTrees { typeParams } rest := by
  rcases h with ⟨rfl, rfl⟩ | ⟨cs, rfl, reads⟩
  · rfl
  · rw [List.singleton_append, ofTrees, if_pos rfl, reads]
    rfl

theorem ofTrees_params {typeParams : List TypeParam} {params : List Param}
    (h : Holds Param.ofTrees parameterList ts params) (rest : List Tree) :
    ofTrees { typeParams } (ts ++ rest) = ofTrees { typeParams, params } rest := by
  rcases h with ⟨rfl, rfl⟩ | ⟨cs, rfl, reads⟩
  · rfl
  · rw [List.singleton_append, ofTrees, if_neg (by decide), if_pos rfl, reads]
    rfl

end FunctionParts

namespace TypeExpr

section
variable {loc : Loc} {typeParams : List TypeParam} {params : List Param} {result : TypeExpr}
  (hp : ∀ p ∈ typeParams, p.ReadsBack) (hq : ∀ p ∈ params, p.ReadsBack) (hr : result.ReadsBack)
include hp hq hr

/-- the parameters of a function and its result -/
theorem writes_arrow :
    ∃ symbols ∈ Symbol.calls [ARROW, typeExpr], ∃ ts,
      (∀ words, Writes words symbols
        (Text.arrow (Text.angled (TypeParam.renderAll typeParams)) (Text.join ", " (Param.renderAll params))
          result.render) ts) ∧
      ∀ (label : Label) (make : List TypeParam → List Param → TypeExpr → TypeExpr),
        FunctionParts.type label Cursor.start.loc make (FunctionParts.ofTrees {} ts) =
          .ok (make (TypeParam.movedAll Loc.first typeParams) (Param.movedAll Loc.first params)
            (result.moved Loc.first)) := by
  obtain ⟨a, ha, ts, writes, heads⟩ := TypeParam.writes_list hp
  obtain ⟨b, hb, us, writes', holds⟩ := Param.writes_list hq
  obtain ⟨label, cs, writes'', isType, reads⟩ := hr
  refine ⟨_, Symbol.mem_calls ha hb _, ts ++ (us ++ [.node label Cursor.start.loc cs]), fun words => ?_,
    fun parent make => ?_⟩
  · have isArrow : ARROW.spelling? = some "=>" := rfl
    have type := (writes_typeExpr writes'').spaced (List.cons_ne_nil _ _)
    have behind := (type.punctuation isArrow rfl []).spaced (List.cons_ne_nil _ _)
    have row := (writes words).call writes' behind
    rw [Text.arrow]
    simp only [List.append_assoc]
    exact row
  · have other : label ≠ .phrase typeParameters ∧ label ≠ .phrase parameterList := by
      constructor
      · rintro rfl
        cases isType
      · rintro rfl
        cases isType
    have parts : FunctionParts.ofTrees {} (ts ++ (us ++ [.node label Cursor.start.loc cs])) =
        .ok ⟨TypeParam.movedAll Loc.first typeParams, Param.movedAll Loc.first params,
          some (.ok (result.moved Loc.first))⟩ := by
      rw [FunctionParts.ofTrees_typeParams heads, FunctionParts.ofTrees_params holds, FunctionParts.ofTrees,
        if_neg other.1, if_neg other.2, reads, FunctionParts.ofTrees]
    rw [parts]
    rfl

/-- parameters, an arrow and a type -/
theorem readsBack_function : ReadsBack (.function loc typeParams params result) := by
  obtain ⟨symbols, mem, ts, writes, reads⟩ := writes_arrow hp hq hr
  have type := (writes typeWords).node (n := functionType) mem (List.nil_subset _) rfl
  refine ⟨_, _, type, rfl, ?_⟩
  rw [ofTree]
  exact reads _ _

/-- the same behind `new` -/
theorem readsBack_construct : ReadsBack (.construct loc typeParams params result) := by
  obtain ⟨symbols, mem, ts, writes, reads⟩ := writes_arrow hp hq hr
  have isNew : NEW.spelling? = some "new" := rfl
  have row := ((writes []).spaced (Symbol.calls_ne_nil mem)).sign isNew nofun rfl
    (Text.not_begins_cons (goesOn_space _) _) typeWords
  have type := row.node (n := constructorType) (List.mem_map_of_mem mem) (List.nil_subset _) rfl
  refine ⟨_, _, type, rfl, ?_⟩
  rw [ofTree]
  exact reads _ _

end

end TypeExpr

end Typings
