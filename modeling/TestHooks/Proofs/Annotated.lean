import Mathlib.Data.List.Flatten
import Mathlib.Tactic.ByContra
import TestHooks.Expansion.File
import TestHooks.Proofs.Attributes
import TestHooks.Proofs.Headers

/-!
# Which annotated types are found

Every type declaration of a file has a site: the names of the types around it, and whether a conditional block
stands around it. The annotated types that are found are those of the sites outside conditional blocks.
-/

namespace TestHooks.Expansion

open TestHooks.Reader TestHooks.Swift TestHooks.Swift.Reader TestHooks.Text

/-! ### Sites -/

/-- A type declaration, the names of the types around it from the outermost on, and whether a conditional block
stands somewhere around it. -/
structure Site where
  path : List String
  conditional : Bool
  head : Head
  header : TypeHeader
  members : List Decl

mutual

/-- The type declarations in a declaration at any depth, in the order of the text. -/
def sitesIn (path : List String) (conditional : Bool) : Decl → List Site
  | .group head header members =>
    ⟨path, conditional, head, header, members⟩ :: sitesAmong (path ++ [header.name]) conditional members
  | .conditional _ clauses => sitesOfClauses path clauses
  | .variableList _ _ _ => []
  | .function _ _ => []
  | .other _ _ _ => []

def sitesAmong (path : List String) (conditional : Bool) : List Decl → List Site
  | [] => []
  | d :: ds => sitesIn path conditional d ++ sitesAmong path conditional ds

def sitesOfClauses (path : List String) : List Clause → List Site
  | [] => []
  | .mk _ _ members :: cs => sitesAmong path true members ++ sitesOfClauses path cs

end

/-- The names around the declaration and its own, with dots between. -/
def Site.name (s : Site) : String :=
  joinTexts "." (s.path ++ [s.header.name])

/-- One entry for each registered attribute of the declaration. -/
def Site.entries (registered : String → Bool) (s : Site) : List AnnotatedType :=
  annotationsOf registered s.head s.header s.members s.name

theorem sitesAmong_append (path : List String) (conditional : Bool) (ds es : List Decl) :
    sitesAmong path conditional (ds ++ es) = sitesAmong path conditional ds ++ sitesAmong path conditional es := by
  induction ds with
  | nil => rfl
  | cons d ds ih => rw [List.cons_append, sitesAmong, sitesAmong, ih, List.append_assoc]

mutual

theorem conditional_sitesIn {path : List String} {d : Decl} {s : Site} (h : s ∈ sitesIn path true d) :
    s.conditional = true := by
  cases d with
  | group head header members =>
    rw [sitesIn] at h
    rcases List.mem_cons.1 h with rfl | h
    · rfl
    · exact conditional_sitesAmong h
  | conditional position clauses =>
    rw [sitesIn] at h
    exact conditional_sitesOfClauses h
  | variableList => cases h
  | function => cases h
  | other => cases h

/-- Everything in a conditional block is conditional. -/
theorem conditional_sitesAmong {path : List String} {ds : List Decl} {s : Site} (h : s ∈ sitesAmong path true ds) :
    s.conditional = true := by
  cases ds with
  | nil => cases h
  | cons d ds =>
    rw [sitesAmong] at h
    rcases List.mem_append.1 h with h | h
    · exact conditional_sitesIn h
    · exact conditional_sitesAmong h

theorem conditional_sitesOfClauses {path : List String} {cs : List Clause} {s : Site}
    (h : s ∈ sitesOfClauses path cs) : s.conditional = true := by
  cases cs with
  | nil => cases h
  | cons c cs =>
    cases c with
    | mk keyword condition members =>
      rw [sitesOfClauses] at h
      rcases List.mem_append.1 h with h | h
      · exact conditional_sitesAmong h
      · exact conditional_sitesOfClauses h

end

/-! ### Names of types -/

theorem named_append {ds es : List Decl} {path : List String} {conditional : Bool}
    (hd : ∀ s ∈ sitesAmong path conditional ds, s.header.name ≠ "")
    (he : ∀ s ∈ sitesAmong path conditional es, s.header.name ≠ "") :
    ∀ s ∈ sitesAmong path conditional (ds ++ es), s.header.name ≠ "" := by
  intro s hs
  rw [sitesAmong_append] at hs
  exact (List.mem_append.1 hs).elim (hd s) (he s)

/-- The sites of what is read have names if the tokens are not empty. -/
def namesInvariant : ReadingInvariant where
  declared _ _ ts found _ := (∀ t ∈ ts, t.text ≠ "") →
    ∀ path conditional, ∀ s ∈ sitesAmong path conditional found.toList, s.header.name ≠ ""
  listed ts found _ := (∀ t ∈ ts, t.text ≠ "") →
    ∀ path conditional, ∀ s ∈ sitesAmong path conditional found, s.header.name ≠ ""
  divided _ _ _ _ ts found _ := (∀ t ∈ ts, t.text ≠ "") →
    ∀ path, ∀ s ∈ sitesOfClauses path found, s.header.name ≠ ""
  enclosed _ _ ts found _ _ := (∀ t ∈ ts, t.text ≠ "") →
    ∀ path conditional, ∀ s ∈ sitesAmong path conditional found, s.header.name ≠ ""
  conditional _ _ _ h := by
    intro ht path conditional s hs
    simp only [Option.toList_some, sitesAmong, sitesIn, List.append_nil] at hs
    exact h ht path s hs
  directive _ _ _ := by
    intro _ path conditional s hs
    cases hs
  group {_ t ts head k rest keyword header inside ms _} _ hh _ ht _ hm := by
    intro hts path conditional s hs
    have hr : rest <:+ ts := suffix_of_cons_suffix_cons ((headFrom t).suffix hh)
    have hi : inside <:+ ts := ((typeHeader keyword).suffix ht).trans hr
    simp only [Option.toList_some, sitesAmong, sitesIn, List.append_nil] at hs
    rcases List.mem_cons.1 hs with rfl | hs
    · exact typeHeader_name ht fun t hm => hts t (hr.subset hm)
    · exact hm (fun t hm => hts t (hi.subset hm)) _ _ s hs
  flat _ _ _ hf := by
    intro _ path conditional s hs
    rcases flatDeclaration_cases hf with ⟨_, _, -, -, rfl⟩ | ⟨_, -, -, rfl⟩ | ⟨_, _, -, -, rfl⟩ | ⟨-, -, -, -, rfl, -⟩
    all_goals cases hs
  close _ := by
    intro _ path conditional s hs
    cases hs
  semicolon _ h := fun ht => h fun t hm => ht t (List.mem_cons_of_mem _ hm)
  member _ _ hd hfirst _ hothers := by
    intro ht path conditional
    have hrest := fun t hm => ht t (List.mem_cons_of_mem _ hm)
    exact named_append (hfirst hrest path conditional)
      (hothers (fun t hm => hrest t ((declarationRun_suffix hd).subset hm)) path conditional)
  finish {_ _ mark keyword _ _ _ _ _ _} hc _ hm := by
    intro ht path s hs
    rw [sitesOfClauses, sitesOfClauses, List.append_nil] at hs
    exact hm (fun t hm => ht t (((clauseCondition keyword mark).suffix hc).subset hm)) path true s hs
  next {_ _ mark keyword _ _ _ _ _ _ _ _ _} hc hrun hm _ ho := by
    intro ht path s hs
    have hi := (clauseCondition keyword mark).suffix hc
    rw [sitesOfClauses] at hs
    rcases List.mem_append.1 hs with hs | hs
    · exact hm (fun t hm => ht t (hi.subset hm)) path true s hs
    · exact ho (fun t hm => ht t (hi.subset ((clauseMembersRun_suffix hrun).1.subset hm))) path s hs
  mark _ := by
    intro _ path conditional s hs
    cases hs
  separator _ _ h := fun ht => h fun t hm => ht t (List.mem_cons_of_mem _ hm)
  enclosedMember _ _ _ hd hfirst _ hothers := by
    intro ht path conditional
    have hrest := fun t hm => ht t (List.mem_cons_of_mem _ hm)
    exact named_append (hfirst hrest path conditional)
      (hothers (fun t hm => hrest t ((declarationRun_suffix hd).subset hm)) path conditional)

theorem names_topLevel {ts : List Token} {ds : List Decl} (h : topLevel ts = .ok ds) (ht : ∀ t ∈ ts, t.text ≠ "")
    (path : List String) : ∀ s ∈ sitesAmong path false ds, s.header.name ≠ "" := by
  rcases topLevel_cases h with ⟨rfl, rfl⟩ | ⟨t, rest, hts, ⟨-, hr⟩ | ⟨-, -, first, after, others, hd, ho, rfl⟩⟩
  · exact nofun
  · exact names_topLevel hr (fun t hm => ht t (by rw [hts]; exact List.mem_cons_of_mem _ hm)) path
  · have hrest : ∀ t ∈ rest, t.text ≠ "" := fun t hm => ht t (by rw [hts]; exact List.mem_cons_of_mem _ hm)
    exact named_append (namesInvariant.declared_of_run hd hrest path false)
      (names_topLevel ho (fun t hm => hrest t ((declarationRun_suffix hd).subset hm)) path)
termination_by ts.length
decreasing_by
  · rw [hts, List.length_cons]
    omega
  · have := (declarationRun_suffix hd).length_le
    rw [hts, List.length_cons]
    omega

/-! ### Annotated types by their sites -/

theorem joinWith_concat (sep : List Char) (x : List Char) (xs : List (List Char)) (y : List Char) :
    joinWith sep ((x :: xs) ++ [y]) = joinWith sep (x :: xs) ++ (sep ++ y) := by
  induction xs generalizing x with
  | nil => simp [joinWith]
  | cons z zs ih =>
    have := ih z
    simp only [List.cons_append] at this
    simp only [List.cons_append, joinWith, this, List.append_assoc]

/-- The name that goes before the names of the types inside. -/
def outerName (path : List String) : Option String :=
  if path.isEmpty then none else some (joinTexts "." path)

theorem qualify_outerName {path : List String} (hp : ∀ name ∈ path, name ≠ "") (name : String) :
    qualify (outerName path) name = joinTexts "." (path ++ [name]) := by
  cases path with
  | nil => simp [outerName, qualify, joinTexts, joinWith]
  | cons first others =>
    have hfirst : first.toList ≠ [] := by
      rw [ne_eq, String.toList_eq_nil_iff]
      exact hp first List.mem_cons_self
    have hne : (joinTexts "." (first :: others)).isEmpty = false := by
      rw [Bool.eq_false_iff]
      intro he
      rw [String.isEmpty_iff, joinTexts] at he
      have hl := congrArg String.toList he
      rw [String.toList_ofList] at hl
      obtain ⟨c, cs, hc⟩ := List.exists_cons_of_ne_nil hfirst
      rw [List.map_cons, hc, joinWith_cons_head] at hl
      cases hl
    simp only [outerName, List.isEmpty_cons, Bool.false_eq_true, if_false, qualify, hne]
    apply String.toList_injective
    simp only [joinTexts, List.map_append, List.map_cons, List.map_nil, joinWith_concat, String.toList_append,
      String.toList_ofList, List.append_assoc]

section

variable (registered : String → Bool)

mutual

theorem annotatedIn_eq {path : List String} {d : Decl} (hp : ∀ name ∈ path, name ≠ "")
    (h : ∀ s ∈ sitesIn path false d, s.header.name ≠ "") :
    annotatedIn registered (outerName path) d =
      ((sitesIn path false d).filter (!·.conditional)).flatMap (Site.entries registered) := by
  cases d with
  | group head header members =>
    rw [sitesIn] at h ⊢
    have hname : header.name ≠ "" := h _ List.mem_cons_self
    have hpath : ∀ name ∈ path ++ [header.name], name ≠ "" := by
      intro name hm
      rcases List.mem_append.1 hm with hm | hm
      · exact hp name hm
      · rw [List.mem_singleton.1 hm]
        exact hname
    have houter : outerName (path ++ [header.name]) = some (joinTexts "." (path ++ [header.name])) := by
      simp [outerName]
    have ih := annotatedAmong_eq hpath fun s hs => h s (List.mem_cons_of_mem _ hs)
    rw [houter] at ih
    simp only [annotatedIn, qualify_outerName hp, ih, Bool.not_false, List.filter_cons_of_pos, List.flatMap_cons,
      Site.entries, Site.name]
  | conditional position clauses =>
    rw [sitesIn, annotatedIn]
    have hfilter : (sitesOfClauses path clauses).filter (!·.conditional) = [] := by
      rw [List.filter_eq_nil_iff]
      intro s hs
      simp [conditional_sitesOfClauses hs]
    rw [hfilter, List.flatMap_nil]
    all_goals simp
  | variableList => simp [annotatedIn, sitesIn]
  | function => simp [annotatedIn, sitesIn]
  | other => simp [annotatedIn, sitesIn]

theorem annotatedAmong_eq {path : List String} {ds : List Decl} (hp : ∀ name ∈ path, name ≠ "")
    (h : ∀ s ∈ sitesAmong path false ds, s.header.name ≠ "") :
    annotatedAmong registered (outerName path) ds =
      ((sitesAmong path false ds).filter (!·.conditional)).flatMap (Site.entries registered) := by
  cases ds with
  | nil => rfl
  | cons d ds =>
    rw [sitesAmong] at h ⊢
    rw [annotatedAmong, annotatedIn_eq hp fun s hs => h s (List.mem_append_left _ hs),
      annotatedAmong_eq hp fun s hs => h s (List.mem_append_right _ hs), List.filter_append, List.flatMap_append]

end

theorem annotatedAmong_of_parse {text : String} {ds : List Decl} (h : Swift.parse text = .ok ds) :
    annotatedAmong registered none ds =
      ((sitesAmong [] false ds).filter (!·.conditional)).flatMap (Site.entries registered) := by
  refine annotatedAmong_eq registered (List.forall_mem_nil _) ?_
  apply names_topLevel (parse_cases h).2
  intro t ht
  exact ((Token.standing_ofText text).lexed t ht).text_ne_empty

end

/-! ### Order and completeness -/

mutual

theorem attributes_sitesIn (path : List String) (conditional : Bool) (d : Decl) :
    ((sitesIn path conditional d).flatMap fun s => s.head.attributes).Sublist (attributesOf d) := by
  cases d with
  | group head header members =>
    rw [sitesIn, List.flatMap_cons, attributesOf]
    exact (List.Sublist.refl _).append (attributes_sitesAmong _ _ members)
  | conditional position clauses =>
    rw [sitesIn, attributesOf]
    exact attributes_sitesOfClauses path clauses
  | variableList => exact List.nil_sublist _
  | function => exact List.nil_sublist _
  | other => exact List.nil_sublist _

/-- Sites are listed in the order of their attributes. -/
theorem attributes_sitesAmong (path : List String) (conditional : Bool) (ds : List Decl) :
    ((sitesAmong path conditional ds).flatMap fun s => s.head.attributes).Sublist (attributesAmong ds) := by
  cases ds with
  | nil => exact List.nil_sublist _
  | cons d ds =>
    rw [sitesAmong, List.flatMap_append, attributesAmong]
    exact (attributes_sitesIn path conditional d).append (attributes_sitesAmong path conditional ds)

theorem attributes_sitesOfClauses (path : List String) (cs : List Clause) :
    ((sitesOfClauses path cs).flatMap fun s => s.head.attributes).Sublist (attributesOfClauses cs) := by
  cases cs with
  | nil => exact List.nil_sublist _
  | cons c cs =>
    cases c with
    | mk keyword condition members =>
      rw [sitesOfClauses, List.flatMap_append, attributesOfClauses]
      exact (attributes_sitesAmong path true members).append (attributes_sitesOfClauses path cs)

end

theorem marks_entries (registered : String → Bool) (s : Site) :
    (s.entries registered).map AnnotatedType.mark = s.head.attributes.filter fun a => registered a.name := by
  simp [Site.entries, annotationsOf, Function.comp_def]

theorem marks_sites (registered : String → Bool) (sites : List Site) :
    (sites.flatMap (Site.entries registered)).map AnnotatedType.mark =
      (sites.flatMap fun s => s.head.attributes).filter fun a => registered a.name := by
  simp only [List.map_flatMap, marks_entries, List.filter_flatMap]

/-- The marks of sites that are listed in the order of the text do not overlap. -/
theorem marks_apart {text : String} {ds : List Decl} (registered : String → Bool) (h : Swift.parse text = .ok ds)
    {sites : List Site} (hs : sites.Sublist (sitesAmong [] false ds)) :
    Apart text.toList ((sites.flatMap (Site.entries registered)).map AnnotatedType.span) := by
  have hmap : (sites.flatMap (Site.entries registered)).map AnnotatedType.span =
      ((sites.flatMap (Site.entries registered)).map AnnotatedType.mark).map Attribute.span := by
    rw [List.map_map]
    rfl
  rw [hmap, marks_sites]
  apply (attributes_stand h).sublist
  apply List.Sublist.map
  exact List.filter_sublist.trans ((hs.flatMap _).trans (attributes_sitesAmong [] false ds))

/-- The places at which nothing is registered. -/
def Site.Unmarked (registered : String → Bool) (s : Site) : Prop :=
  ∀ a ∈ s.head.attributes, registered a.name = false

theorem entries_eq_nil_iff {registered : String → Bool} {s : Site} :
    s.entries registered = [] ↔ s.Unmarked registered := by
  simp [Site.entries, annotationsOf, Site.Unmarked, List.filter_eq_nil_iff]

theorem flatMap_filter_eq_iff {α β : Type} {p : α → Bool} {f : α → List β} {xs : List α} :
    (xs.filter p).flatMap f = xs.flatMap f ↔ ∀ x ∈ xs, p x = false → f x = [] := by
  induction xs with
  | nil => simp
  | cons x xs ih =>
    by_cases hx : p x = true
    · simp [hx, ih]
    · have hle : ((xs.filter p).flatMap f).length ≤ (xs.flatMap f).length :=
        (List.filter_sublist.flatMap f).length_le
      simp only [hx, List.filter_cons, Bool.false_eq_true, if_false, List.flatMap_cons, List.mem_cons,
        forall_eq_or_imp, ← ih]
      constructor
      · intro he
        have hl := congrArg List.length he
        rw [List.length_append] at hl
        have hnil : f x = [] := List.eq_nil_of_length_eq_zero (by omega)
        exact ⟨fun _ => hnil, by rwa [hnil, List.nil_append] at he⟩
      · rintro ⟨hnil, he⟩
        rw [hnil (by simp), List.nil_append, he]

/-- The types that are found are those outside conditional blocks. They are all annotated types of the file, and all
registered attributes of types are consumed, exactly if nothing is registered for the types in conditional blocks. -/
theorem found_iff_unmarked_in_conditionals {text : String} {ds : List Decl} (registry : Registry)
    (h : Swift.parse text = .ok ds) :
    let sites := sitesAmong [] false ds
    let annotated := sites.flatMap (Site.entries registry.isRegistered)
    let found := annotatedAmong registry.isRegistered none ds
    let unmarked := ∀ s ∈ sites, s.conditional = true → s.Unmarked registry.isRegistered
    found = (sites.filter (!·.conditional)).flatMap (Site.entries registry.isRegistered) ∧
      (annotated.map AnnotatedType.mark).Pairwise (fun a b => a.start.offset < b.start.offset) ∧
      (found = annotated ↔ unmarked) ∧
      ((∀ s ∈ sites, ∀ a ∈ s.head.attributes, registry.isRegistered a.name = true →
        a ∈ found.map AnnotatedType.mark) ↔ unmarked) := by
  intro sites annotated found unmarked
  have hfound : found = (sites.filter (!·.conditional)).flatMap (Site.entries registry.isRegistered) :=
    annotatedAmong_of_parse registry.isRegistered h
  have hordered : (annotated.map AnnotatedType.mark).Pairwise fun a b => a.start.offset < b.start.offset := by
    have hstarts := (marks_apart registry.isRegistered h (List.Sublist.refl sites)).starts_ordered
    rw [List.pairwise_map] at hstarts ⊢
    exact hstarts
  have hall : found = annotated ↔ unmarked := by
    rw [hfound, flatMap_filter_eq_iff]
    simp only [Bool.not_eq_false', entries_eq_nil_iff]
    rfl
  refine ⟨hfound, hordered, hall, ?_⟩
  constructor
  · intro hconsumed s hs hc a ha
    by_contra hr
    rw [Bool.not_eq_false] at hr
    have hmark : a ∈ found.map AnnotatedType.mark := hconsumed s hs a ha hr
    -- The attribute would be listed twice, but marks are listed once.
    have hperm : (annotated.map AnnotatedType.mark).Perm (found.map AnnotatedType.mark ++
        ((sites.filter (!!·.conditional)).flatMap (Site.entries registry.isRegistered)).map AnnotatedType.mark) := by
      rw [hfound, ← List.map_append, ← List.flatMap_append]
      exact ((List.filter_append_perm (!·.conditional) sites).symm.flatMap_right _).map _
    have hnodup : (annotated.map AnnotatedType.mark).Nodup := by
      refine hordered.imp fun {a b} hab => ?_
      rintro rfl
      exact Nat.lt_irrefl _ hab
    have hne := hperm.nodup_iff.1 hnodup
    have hother : a ∈ ((sites.filter (!!·.conditional)).flatMap
        (Site.entries registry.isRegistered)).map AnnotatedType.mark := by
      rw [marks_sites, List.mem_filter, List.mem_flatMap]
      exact ⟨⟨s, List.mem_filter.2 ⟨hs, by simpa using hc⟩, ha⟩, hr⟩
    exact (List.nodup_append.1 hne).2.2 a hmark a hother rfl
  · intro hu s hs a ha hr
    rw [hall.2 hu, marks_sites, List.mem_filter, List.mem_flatMap]
    exact ⟨⟨s, hs, ha⟩, hr⟩

/-- A file whose only annotated type stands in a conditional block. -/
def conditionalText : String := "#if DEBUG\n@Testable class A \x7b\x7d\n#endif"

/-- An annotated type in a conditional block is missed. -/
theorem conditional_type_missed :
    ∃ ds, Swift.parse conditionalText = .ok ds ∧ annotatedAmong Registry.standard.isRegistered none ds = [] ∧
      ((sitesAmong [] false ds).flatMap (Site.entries Registry.standard.isRegistered)).map AnnotatedType.name =
        ["A"] := by
  have hr : (Swift.parse conditionalText).toOption.any (fun ds =>
      (annotatedAmong Registry.standard.isRegistered none ds).isEmpty &&
        ((sitesAmong [] false ds).flatMap (Site.entries Registry.standard.isRegistered)).map AnnotatedType.name ==
          ["A"]) = true := by
    decide +kernel
  obtain ⟨ds, hds, hfacts⟩ := exists_ok hr
  rw [Bool.and_eq_true, List.isEmpty_iff, beq_iff_eq] at hfacts
  exact ⟨ds, hds, hfacts⟩

/-- A file with an annotated type, and a conditional block inside whose type is not annotated. -/
def nestedText : String :=
  "@Testable class A \x7b struct B \x7b\x7d\n#if DEBUG\nclass C \x7b\x7d\n#endif\n\x7d"

theorem found_in_nested_text :
    ∃ ds, Swift.parse nestedText = .ok ds ∧
      annotatedAmong Registry.standard.isRegistered none ds =
        (sitesAmong [] false ds).flatMap (Site.entries Registry.standard.isRegistered) := by
  have hr : (Swift.parse nestedText).toOption.any (fun ds => (sitesAmong [] false ds).all fun s =>
      !s.conditional || s.head.attributes.all fun a => !Registry.standard.isRegistered a.name) = true := by
    decide +kernel
  obtain ⟨ds, hds, hfacts⟩ := exists_ok hr
  refine ⟨ds, hds, (found_iff_unmarked_in_conditionals Registry.standard hds).2.2.1.2 ?_⟩
  intro s hs hc a ha
  have hsite := List.all_eq_true.1 hfacts s hs
  simp only [hc, Bool.not_true, Bool.false_or, List.all_eq_true, Bool.not_eq_true'] at hsite
  exact hsite a ha

end TestHooks.Expansion
