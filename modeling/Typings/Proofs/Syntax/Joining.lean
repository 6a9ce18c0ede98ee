import Typings.Proofs.Grammar.Elements
import Typings.Proofs.Syntax.NextLine
import Typings.Proofs.Syntax.Placing
/-!
# Files one after the other

No phrase goes on with a keyword that an element begins with.  So the course of a file stays the same
when another file comes behind it, and the elements of this one are read as they were at the start.

* `Derivation.Course.before_starter`     an element may come behind instead of the end;
* `Derivation.Course.behind_elements`    a phrase is read behind elements as at the start;
* `Derivation.exists_joined`             the derivation of two files, and its course;
* `parse_nextLine`                       the derivation of a file that goes on in the next line.
-/

namespace Typings

namespace Derivation
open Automaton

/-! ## An element comes behind -/

/-- what comes behind a row that has a first token plays no part -/
theorem CourseAll.firstKind_eq {state last : Nat} {d : Derivation} {rest : List Derivation}
    {states : List Nat} (h : CourseAll state (d :: rest) .END states last)
    (part : d.root ≠ .nonterminal .file) (t : Terminal) :
    firstKind (d :: rest) .END = firstKind (d :: rest) t := by
  obtain ⟨after, reads⟩ := h.first part
  unfold firstKind at reads ⊢
  generalize tokensOf (d :: rest) = tokens at reads ⊢
  cases tokens with
  | nil =>
    have none : next? state (.terminal .END) = some after := reads
    rw [next?_end] at none
    cases none
  | cons token tokens => rfl

mutual

/-- in the place of the end of the text an element may come -/
theorem Course.before_starter {t : Terminal} (starter : t ∈ Terminal.starters) :
    ∀ (d : Derivation) {state : Nat} {states : List Nat} {next : Nat},
    Course state d .END states next → ∀ {first i : Nat} {p : Production}, Item state first p i →
      p.rhs[i]? = some d.root → Course state d t states next
  | .leaf _, _, _, _, .leaf step, _, _, _, _, _ => .leaf step
  | .node _ parts, _, _, _, .node mem roots inner _ step, _, _, _, item, hi => by
    obtain ⟨g, start⟩ := item.enter hi mem
    obtain ⟨row, atEnd⟩ := CourseAll.before_starter starter parts inner start roots.symm
    exact .node mem roots row (atEnd.not_reads_starter (ne_file_of_next step) starter) step

theorem CourseAll.before_starter {t : Terminal} (starter : t ∈ Terminal.starters) :
    ∀ (ds : List Derivation) {state : Nat} {states : List Nat}
    {last : Nat}, CourseAll state ds .END states last → ∀ {first i : Nat} {p : Production},
      Item state first p i → p.rhs.drop i = ds.map root →
        CourseAll state ds t states last ∧ Item last first p p.rhs.length
  | [], state, _, _, .nil, first, i, p, item, rhs => by
    have atEnd : i = p.rhs.length := Nat.le_antisymm item.le (List.drop_eq_nil_iff.mp rhs)
    exact ⟨.nil, atEnd ▸ item⟩
  | d :: rest, state, _, last, @CourseAll.cons _ next _ _ _ _ states more here further, first, i, p,
      item, rhs => by
    rw [List.map_cons] at rhs
    have hi : p.rhs[i]? = some d.root := by
      rw [← List.head?_drop, rhs]
      rfl
    have rest' : p.rhs.drop (i + 1) = rest.map root := by
      rw [← List.tail_drop, rhs]
      rfl
    obtain ⟨row, atEnd⟩ := CourseAll.before_starter starter rest further (item.advance hi here.next) rest'
    cases rest with
    | nil => exact ⟨.cons (Course.before_starter starter d here item hi) row, atEnd⟩
    | cons e rest =>
      have part : e.root ≠ .nonterminal .file := by
        intro isFile
        refine file_not_mem_rhs p item.mem_productions (List.mem_of_mem_drop (i := i + 1) ?_)
        rw [rest', List.map_cons, isFile]
        exact List.mem_cons_self
      refine ⟨.cons ?_ row, atEnd⟩
      rw [← further.firstKind_eq part t]
      exact here

end

/-! ## Behind elements -/

section
variable {middle : Nat} (hs : next? 0 (.nonterminal .fileElements) = some middle)
include hs

/-- a phrase that is read at the start is read behind elements -/
theorem Course.behind_elements : ∀ (d : Derivation) {ahead : Terminal} {states : List Nat} {next : Nat},
    Course 0 d ahead states next → d.root ≠ .nonterminal .element ∧ d.root ≠ .nonterminal .fileElements →
      Course middle d ahead states next
  | .leaf token, _, _, _, .leaf step, _ => by
    refine .leaf ?_
    rw [next?_behind_elements hs (fun e => Symbol.noConfusion e) (fun e => Symbol.noConfusion e)]
    exact step
  | .node p [], _, _, _, .node mem roots _ _ step, _ =>
    absurd (eq_file_of_rhs_nil p mem roots.symm) (ne_file_of_next step)
  | .node p (e :: rest), _, _, _, .node mem roots (.cons here further) unread step, ⟨element, elements⟩ => by
    have head : e.root ∈ p.rhs.head? := by
      rw [← roots]
      rfl
    have part := head_ne_element p mem (ne_file_of_next step) (fun lhs => elements (congrArg _ lhs)) _ head
    refine .node mem roots (.cons (Course.behind_elements e here part) further) unread ?_
    rw [root_node] at element elements
    rw [next?_behind_elements hs element elements]
    exact step

/-- so is an element -/
theorem Course.element_behind {d : Derivation} {ahead : Terminal} {states : List Nat} {next : Nat}
    (h : Course 0 d ahead states next) (element : d.root = .nonterminal .element) :
    ∃ after, Course middle d ahead states after := by
  obtain ⟨f, has⟩ := has_element_behind
  have item : Item middle f ⟨.fileElements, [.nonterminal .fileElements, .nonterminal .element]⟩ 1 :=
    ⟨_, kernel_behind_elements hs, has⟩
  obtain ⟨after, step'⟩ := item.next (s := .nonterminal .element) rfl
  refine ⟨after, ?_⟩
  match d, h with
  | .node p [], .node mem roots _ _ step =>
    exact absurd (eq_file_of_rhs_nil p mem roots.symm) (ne_file_of_next step)
  | .node p (e :: rest), .node mem roots (.cons here further) unread step =>
    have lhs : p.lhs = .element := Symbol.nonterminal.inj element
    have head : e.root ∈ p.rhs.head? := by
      rw [← roots]
      rfl
    have part := head_ne_element p mem (ne_file_of_next step) (by rw [lhs]; decide) _ head
    refine .node mem roots (.cons (Course.behind_elements hs e here part) further) unread ?_
    rw [lhs]
    exact step'

end

/-! ## Two files -/

/-- what can come behind elements: another one or the end -/
theorem ahead_fileElements : ∀ t ∈ Terminal.all, t ∈ Terminal.starters ∨ t = .END →
    (Lookahead.ahead .fileElements).contains t = true := by
  decide +kernel

theorem mem_separated_fileElements :
    ⟨.fileElements, [.nonterminal .fileElements, .nonterminal .element]⟩ ∈ separated := by
  with_unfolding_all decide

/-- an element begins with a starter -/
theorem firstKind_element {d : Derivation} (valid : d.Valid) (element : d.root = .nonterminal .element)
    (ahead : Terminal) : firstKind [d] ahead ∈ Terminal.starters := by
  have first := first_of_valid valid (by rw [element]; exact fun e => nomatch e) ahead
  rw [element] at first
  have head : (Production.mk .fileElements [.nonterminal .element]).rhs.head? =
    some (.nonterminal .element) := rfl
  have whole := Lookahead.first_of_head mem_fileElements.2.1 head first
  exact first_fileElements _ (Terminal.mem_all _) whole

/-- the parts of elements -/
theorem parts_of_elements {p : Production} {parts : List Derivation} (mem : p ∈ productions)
    (roots : parts.map root = p.rhs) (lhs : p.lhs = .fileElements) :
    (∃ x, parts = [x] ∧ x.root = .nonterminal .element) ∨
      ∃ more x, parts = [more, x] ∧ more.root = .nonterminal .fileElements ∧
        x.root = .nonterminal .element := by
  rcases rhs_of_fileElements p mem lhs with e | e
  · rw [e] at roots
    obtain ⟨x, rest, rfl, hx, none⟩ := List.map_eq_cons_iff.mp roots
    rw [List.map_eq_nil_iff.mp none]
    exact .inl ⟨x, rfl, hx⟩
  · rw [e] at roots
    obtain ⟨more, rest, rfl, hmore, one⟩ := List.map_eq_cons_iff.mp roots
    obtain ⟨x, rest, rfl, hx, none⟩ := List.map_eq_cons_iff.mp one
    rw [List.map_eq_nil_iff.mp none]
    exact .inr ⟨more, x, rfl, hmore, hx⟩

theorem trees_of_elements {p : Production} {parts : List Derivation} (lhs : p.lhs = .fileElements) :
    (node p parts).trees = treesOf parts := by
  rw [trees, lhs]
  rfl

/-- an element behind elements has a course with them -/
theorem course_joined_element {middle last : Nat} (hs : next? 0 (.nonterminal .fileElements) = some middle)
    {front x : Derivation} (isFront : front.root = .nonterminal .fileElements)
    (isElement : x.root = .nonterminal .element) {ahead : Terminal}
    (comes : ahead ∈ Terminal.starters ∨ ahead = .END) {before states : List Nat}
    (frontCourse : Course 0 front (firstKind [x] ahead) before middle) (there : Course middle x ahead states last) :
    Course 0 (node ⟨.fileElements, [.nonterminal .fileElements, .nonterminal .element]⟩ [front, x]) ahead
      (before ++ states) middle := by
  let both : Production := ⟨.fileElements, [.nonterminal .fileElements, .nonterminal .element]⟩
  have row : CourseAll 0 [front, x] ahead (before ++ (states ++ [])) last := .cons frontCourse (.cons there .nil)
  rw [List.append_nil] at row
  have unread : next? last (.terminal ahead) = none := by
    obtain ⟨f, has⟩ := has_elements mem_fileElements.2.2 rfl
    have item : Item 0 f both 0 := ⟨_, kernels_zero, has⟩
    have atEnd : Item last f both 2 :=
      (item.advance rfl hs).advance (s := x.root) (by rw [isElement]; rfl) there.next
    exact atEnd.not_reads (.inl mem_separated_fileElements) (ahead_fileElements ahead ahead.mem_all comes)
  refine .node mem_fileElements.2.2 ?_ row unread hs
  rw [List.map_cons, List.map_cons, isFront, isElement]
  rfl

/-- elements behind others are elements: the tokens and trees of both, with the courses of both -/
theorem exists_joined_elements {middle : Nat} (hs : next? 0 (.nonterminal .fileElements) = some middle)
    {front : Derivation} (isFront : front.root = .nonterminal .fileElements) {before : List Nat}
    {d : Derivation} (valid : d.Valid) (isElements : d.root = .nonterminal .fileElements)
    {ahead : Terminal} (comes : ahead ∈ Terminal.starters ∨ ahead = .END)
    {states : List Nat} {next : Nat} (course : Course 0 d ahead states next)
    (frontCourse : Course 0 front (firstKind [d] ahead) before middle) :
    ∃ e : Derivation, e.root = .nonterminal .fileElements ∧ Course 0 e ahead (before ++ states) middle ∧
      e.tokens = front.tokens ++ d.tokens ∧ e.trees = front.trees ++ d.trees := by
  match d, valid, course with
  | .node p parts, .node mem roots valids, .node _ _ inner unread step =>
    have lhs : p.lhs = .fileElements := Symbol.nonterminal.inj isElements
    rw [firstKind_node] at frontCourse
    rcases parts_of_elements mem roots lhs with ⟨x, rfl, isElement⟩ | ⟨more, x, rfl, areMore, isElement⟩
    · cases inner with
      | @cons _ after _ _ _ _ states' _ here further =>
        cases further
        obtain ⟨last, there⟩ := here.element_behind hs isElement
        rw [List.append_nil]
        refine ⟨_, rfl, course_joined_element hs isFront isElement comes frontCourse there, ?_, ?_⟩
        · rfl
        · rw [trees_of_elements lhs, trees_of_elements rfl]
          rfl
    · cases inner with
      | cons here further =>
        cases valids with
        | cons validMore valids =>
          cases valids with
          | cons validOne _ =>
            have starts := firstKind_element validOne isElement ahead
            obtain ⟨e, rootE, courseE, tokensE, treesE⟩ :=
              exists_joined_elements hs isFront validMore areMore (.inl starts) here
                (by rw [← firstKind_cons]; exact frontCourse)
            have sameState := here.next
            rw [areMore, hs] at sameState
            cases sameState
            refine ⟨node p [e, x], congrArg _ lhs, ?_, ?_, ?_⟩
            · rw [← List.append_assoc]
              refine .node mem ?_ (.cons courseE further) unread (by rw [lhs]; exact hs)
              rw [← roots]
              simp only [List.map_cons, rootE, areMore]
            · show e.tokens ++ _ = front.tokens ++ (more.tokens ++ _)
              rw [tokensE, List.append_assoc]
            · rw [trees_of_elements lhs, trees_of_elements lhs]
              show e.trees ++ _ = front.trees ++ (more.trees ++ _)
              rw [treesE, List.append_assoc]
termination_by d

/-- the trees of the elements of a file -/
def elementTrees : Derivation → List Tree
  | leaf _ => []
  | node _ parts => treesOf parts

/-- a file is empty, or it is made of elements -/
theorem Leads.elements {d : Derivation} {states : List Nat} (h : d.Leads states) :
    d.tokens = [] ∧ states = [] ∧ d.elementTrees = [] ∨
      ∃ p x middle, d = Derivation.node p [x] ∧ p ∈ productions ∧ p.lhs = .file ∧
        p.rhs = [.nonterminal .fileElements] ∧ x.root = .nonterminal .fileElements ∧
          Course 0 x .END states middle := by
  cases h with
  | node mem isFile roots inner =>
    rcases rhs_of_file _ mem isFile with e | e
    · rw [e] at roots
      rw [List.map_eq_nil_iff.mp roots] at inner ⊢
      cases inner
      exact .inl ⟨rfl, rfl, rfl⟩
    · have roots' := roots
      rw [e] at roots'
      obtain ⟨x, rest, rfl, hx, none⟩ := List.map_eq_cons_iff.mp roots'
      rw [List.map_eq_nil_iff.mp none] at inner ⊢
      cases inner with
      | cons here further =>
        cases further
        rw [List.append_nil]
        exact .inr ⟨_, x, _, rfl, mem, isFile, e, hx, here⟩

/-- a file behind another is a file: the tokens and trees of both, with the courses of both -/
theorem exists_joined {d d' : Derivation} (valid : d'.Valid) {states states' : List Nat}
    (leads : d.Leads states) (leads' : d'.Leads states') :
    ∃ e : Derivation, e.Leads (states ++ states') ∧ e.tokens = d.tokens ++ d'.tokens ∧
      e.elementTrees = d.elementTrees ++ d'.elementTrees := by
  rcases leads.elements with ⟨tokens, rfl, trees⟩ | ⟨p, x, middle, rfl, mem, isFile, rhs, isElements, here⟩
  · rw [tokens, trees]
    exact ⟨d', leads', rfl, rfl⟩
  rcases leads'.elements with ⟨tokens, rfl, trees⟩ | ⟨p', y, last, rfl, _, _, _, isElements', here'⟩
  · rw [tokens, trees, List.append_nil, List.append_nil, List.append_nil]
    exact ⟨_, leads, rfl, rfl⟩
  cases valid with
  | node _ _ valids =>
    cases valids with
    | cons validElements _ =>
      have starter : firstKind [y] .END ∈ Terminal.starters := by
        have first := first_of_valid validElements (by rw [isElements']; exact fun e => nomatch e) .END
        rw [isElements'] at first
        exact first_fileElements _ (Terminal.mem_all _) first
      obtain ⟨g, hg⟩ := exists_numbered mem
      have item : Item 0 g p 0 := ⟨_, kernels_zero, ItemSet.has_closure
        ⟨hg, Nat.zero_le _, (ItemSet.testBit_startsOf _ _).mpr ⟨p, hg, isFile⟩⟩⟩
      have front := here.before_starter starter x item (by rw [rhs, isElements]; rfl)
      have hs := here.next
      rw [isElements] at hs
      obtain ⟨e, rootE, courseE, tokensE, treesE⟩ :=
        exists_joined_elements hs isElements validElements isElements' (.inr rfl) here' front
      refine ⟨node p [e], ?_, ?_, ?_⟩
      · have row : CourseAll 0 [e] _ _ _ := .cons courseE .nil
        rw [List.append_nil] at row
        exact .node mem isFile (by rw [rhs, List.map_singleton, rootE]) row
      · show e.tokens ++ [] = (x.tokens ++ []) ++ (y.tokens ++ [])
        rw [tokensE, List.append_nil, List.append_nil, List.append_nil]
      · show e.trees ++ [] = (x.trees ++ []) ++ (y.trees ++ [])
        rw [treesE, List.append_nil, List.append_nil, List.append_nil]

/-! ## Tokens in other places -/

section
variable {f : Token → Token} (kinds : ∀ t, (f t).kind = t.kind)
include kinds

theorem firstKind_mapAll (ds : List Derivation) (ahead : Terminal) :
    firstKind (mapAll f ds) ahead = firstKind ds ahead := by
  unfold firstKind
  rw [tokensOf_mapAll, List.head?_map, Option.map_map]
  congr 2
  exact funext kinds

mutual

/-- a course does not depend on what the tokens are, but for their classes -/
theorem course_map : ∀ (d : Derivation) {state : Nat} {ahead : Terminal} {states : List Nat}
    {next : Nat}, Course state (d.map f) ahead states next ↔ Course state d ahead states next
  | .leaf token, state, ahead, states, next => by
    rw [map]
    constructor
    · rintro (_ | _)
      rename_i step
      rw [kinds] at step
      exact .leaf step
    · rintro (_ | _)
      rename_i step
      refine .leaf ?_
      rw [kinds]
      exact step
  | .node p parts, state, ahead, states, next => by
    have same := roots_mapAll kinds parts
    rw [map]
    constructor
    · rintro (_ | ⟨mem, roots, inner, unread, step⟩)
      exact .node mem (same.symm.trans roots) ((courseAll_map parts).mp inner) unread step
    · rintro (_ | ⟨mem, roots, inner, unread, step⟩)
      exact .node mem (same.trans roots) ((courseAll_map parts).mpr inner) unread step

theorem courseAll_map : ∀ (ds : List Derivation) {state : Nat} {ahead : Terminal}
    {states : List Nat} {last : Nat},
    CourseAll state (mapAll f ds) ahead states last ↔ CourseAll state ds ahead states last
  | [], state, ahead, states, last => Iff.rfl
  | d :: rest, state, ahead, states, last => by
    have same := firstKind_mapAll kinds rest ahead
    rw [mapAll]
    constructor
    · rintro (_ | ⟨here, further⟩)
      rw [same] at here
      exact .cons ((course_map d).mp here) ((courseAll_map rest).mp further)
    · rintro (_ | ⟨here, further⟩)
      rw [← same] at here
      exact .cons ((course_map d).mpr here) ((courseAll_map rest).mpr further)

end

theorem leads_map {d : Derivation} {states : List Nat} : (d.map f).Leads states ↔ d.Leads states := by
  cases d with
  | leaf token =>
    constructor
    · rintro ⟨⟩
    · rintro ⟨⟩
  | node p parts =>
    have same := roots_mapAll kinds parts
    rw [map]
    constructor
    · rintro ⟨mem, isFile, roots, inner⟩
      exact .node mem isFile (same.symm.trans roots) ((courseAll_map kinds parts).mp inner)
    · rintro ⟨mem, isFile, roots, inner⟩
      exact .node mem isFile (same.trans roots) ((courseAll_map kinds parts).mpr inner)

end

/-- the course of a file is that of the same tokens in other places -/
theorem Leads.of_unplaced {d e : Derivation} {states : List Nat} (h : d.Leads states)
    (alike : e.map Token.unplaced = d.map Token.unplaced) : e.Leads states := by
  rw [← leads_map Token.kind_unplaced] at h ⊢
  rwa [alike]

end Derivation

/-- a text that is parsed begins with a keyword -/
theorem Derivation.Leads.starter {d : Derivation} {states : List Nat} (h : d.Leads states) {t : Token}
    {ts : List Token} (e : d.tokens = t :: ts) : t.kind ∈ Terminal.starters := by
  have valid := h.valid
  rcases h.elements with ⟨none, _⟩ | ⟨p, x, _, rfl, _, _, _, isElements, _⟩
  · rw [none] at e
    cases e
  · cases valid with
    | node _ _ valids =>
      cases valids with
      | cons validElements _ =>
        have first := Derivation.first_of_valid validElements
          (by rw [isElements]; exact fun e => nomatch e) .END
        have isFirst : Derivation.firstKind [x] .END = t.kind := by
          unfold Derivation.firstKind
          rw [show Derivation.tokensOf [x] = t :: ts from e]
          rfl
        rw [isElements, isFirst] at first
        exact Automaton.first_fileElements _ (Terminal.mem_all _) first

theorem Terminal.isKeyword_of_starter {t : Terminal} (h : t ∈ starters) : t.isKeyword = true := by
  revert h
  cases t <;> decide

/-- two texts that are parsed are parsed one after the other, if the second does not begin with a
keyword that runs on into a name -/
theorem parse_nextLine {s t : Text} {d d' : Derivation} (h : parse s = .ok d) (h' : parse t = .ok d')
    (apart : ∀ u ∈ d'.tokens.head?,
      ¬ Text.Begins CodePoint.isNamePart (t.drop (u.start.offset + u.text.length))) :
    ∃ e : Derivation, parse (Text.nextLine s t) = .ok e ∧
      e.elementTrees = d.elementTrees ++
        (d'.map (Token.down (s.length + 1) (s.lineFeeds + 1))).elementTrees := by
  obtain ⟨states, leads, scanned⟩ := leads_of_parse h
  obtain ⟨states', leads', scanned'⟩ := leads_of_parse h'
  have valid := (explains_of_parse h').valid
  let down := Token.down (s.length + 1) (s.lineFeeds + 1)
  have kinds : ∀ t, (down t).kind = t.kind := fun _ => rfl
  obtain ⟨e, leadsE, tokensE, treesE⟩ :=
    Derivation.exists_joined ((Derivation.valid_map kinds d').mpr valid) leads ((Derivation.leads_map kinds).mpr leads')
  refine ⟨e, Parser.parse_of_leads leadsE ?_, treesE⟩
  rw [tokensE, Derivation.tokens_map]
  refine scanned.nextLine ?_
  rw [Cursor.advance_line]
  refine Parser.Scanned.down ?_ _ _
  have expects := leadsE.expects
  rw [tokensE, Derivation.tokens_map] at expects
  have behind := Parser.Along.behind leads.expects expects
  cases first : d'.tokens with
  | nil =>
    rw [first] at scanned'
    cases scanned' with
    | nil ends => exact .nil ends
  | cons u us =>
    rw [first] at scanned' behind apart
    cases states' with
    | nil => cases scanned'
    | cons next states' =>
      cases behind with
      | cons here _ =>
        exact scanned'.entered here (Terminal.isKeyword_of_starter (leads'.starter first))
          (apart u rfl)

end Typings
