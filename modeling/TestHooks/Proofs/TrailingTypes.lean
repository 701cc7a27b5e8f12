import TestHooks.Declaration.OfTree
import TestHooks.Proofs.Nodes
import TestHooks.Proofs.Spelled

/-!
# Types of bindings

The lowering of a variable carries a type from the last binding back to the first. Told from the front, a bare
binding has the type of the nearest binding behind it that settles one, and a binding that is not bare has no type
but its own (`variableMembers_follow_trailing_types`).
-/

namespace TestHooks

open TestHooks.Reader TestHooks.Swift TestHooks.Swift.Reader

/-! ### What settles a type -/

/-- True if nothing follows the name of the binding but perhaps a type. -/
def Swift.Binding.isBare (b : Binding) : Bool := b.initializer.isNone && b.accessors.isNone

/-- True for the bindings at which the search for a trailing type ends. -/
def Swift.Binding.settlesType (b : Binding) : Bool := b.type.isSome || !b.isBare

/-- The type behind a list of bindings' front: that of the first binding that settles one. -/
def trailingType (bs : List Binding) : Option String :=
  (bs.find? (·.settlesType)).bind Binding.type

/-- The type of a binding before others. -/
def typeBefore (b : Binding) (later : List Binding) : Option String :=
  match b.type with
  | some type => some type
  | none => if b.isBare then trailingType later else none

/-- True for an attribute with an upper case letter in front that is none of the builtin ones. -/
def Swift.Attribute.wrapsProperty (a : Swift.Attribute) : Bool :=
  a.name.toList.head?.any Text.isUpper && !builtinAttributes.contains a.name

/-- The annotations of the bindings are absent or have some text. -/
def AnnotationsWritten (bs : List Binding) : Prop := ∀ b ∈ bs, b.type ≠ some ""

theorem trailingType_cons (b : Binding) (bs : List Binding) :
    trailingType (b :: bs) = if b.settlesType then b.type else trailingType bs := by
  rw [trailingType, List.find?_cons]
  cases b.settlesType <;> rfl

theorem nonEmpty?_of_written {text : Option String} (h : text ≠ some "") : nonEmpty? text = text := by
  cases text with
  | none => rfl
  | some t =>
    have ht : t.isEmpty = false := by
      rw [Bool.eq_false_iff, ne_eq, String.isEmpty_iff]
      exact fun ht => h (by rw [ht])
    simp [nonEmpty?, Option.filter, ht]

/-- An annotation that was read has at least the text of its first token. -/
theorem written_of_binding {ts rest : List Token} {b : Binding} (hs : Scanned ts)
    (h : binding.run ts = .ok (b, rest)) : b.type ≠ some "" := by
  obtain ⟨named, typed, valued, hn, ht, -, -⟩ := binding_cases h
  intro htype
  rw [htype] at ht
  rcases optionally_cases ht with ⟨-, hx, -⟩ | ⟨colon, more, text, hafter, -, hp, hx⟩
  · cases hx
  · obtain ⟨t, taken, hsplit, htext⟩ := phraseBy_eq_ok.1 hp
    have hmore : Scanned more := scanned_suffix (scanned_suffix hs (Reader.suffix _ hn)) (hafter ▸ List.suffix_cons _ _)
    obtain ⟨place, gap, es, last, rfl, hf⟩ := hmore
    have hmem : t ∈ Token.ofElements place gap es := by
      have hall := splitType_append [] 0 none (Token.ofElements place gap es)
      rw [hsplit] at hall
      exact hall ▸ List.mem_append_left _ List.mem_cons_self
    obtain ⟨c, cs, hc, -⟩ := (titled_phrase (Token.lexed_of_mem hf hmem)).begins
    rw [← htext, ← Option.some.inj hx] at hc
    cases hc

/-- No declaration of a file has a binding with an empty annotation. -/
theorem annotationsWritten_of_parse {text : String} {ds : List Decl} (h : Swift.parse text = .ok ds) {head : Head}
    {keyword : VariableKeyword} {bs : List Binding} (hd : .variableList head keyword bs ∈ nodesAmong ds) :
    AnnotationsWritten bs := by
  rcases nodes_parse h _ hd with _ | _ | _ | ⟨hs, hh, hb⟩ | _ | _
  intro b hm
  obtain ⟨us, after, hu, hrun, -⟩ := byCommas_forall hb b hm
  refine written_of_binding (scanned_suffix (scanned_ofText text) ?_) hrun
  exact hu.trans ((List.suffix_cons _ _).trans (((headFrom _).suffix hh).trans hs))

/-! ### The carried type -/

/-- One binding of the fold: the type it gets and the type it hands to the bindings before it. -/
theorem bindingTypes_cons {b : Binding} (bs : List Binding) (h : b.type ≠ some "") :
    (bindingTypes (b :: bs)).1 =
        (match b.type with
          | some type => some type
          | none => if b.isBare then (bindingTypes bs).2 else none) :: (bindingTypes bs).1 ∧
      (bindingTypes (b :: bs)).2 = if b.settlesType then b.type else (bindingTypes bs).2 := by
  rw [bindingTypes, nonEmpty?_of_written h]
  cases hb : b.type with
  | some type => simp [Binding.settlesType, hb]
  | none =>
    cases hbare : b.isBare with
    | true =>
      have hboth : (b.initializer.isNone && b.accessors.isNone) = true := hbare
      simp [Binding.settlesType, hb, hbare, hboth]
    | false =>
      have hboth : (b.initializer.isNone && b.accessors.isNone) = false := hbare
      simp [Binding.settlesType, hb, hbare, hboth]

/-- What the fold carries is what a search from the front finds. -/
theorem carried_eq_trailingType {bs : List Binding} (h : AnnotationsWritten bs) :
    (bindingTypes bs).2 = trailingType bs := by
  induction bs with
  | nil => rfl
  | cons b bs ih =>
    rw [(bindingTypes_cons bs (h b List.mem_cons_self)).2, trailingType_cons,
      ih fun b hb => h b (List.mem_cons_of_mem _ hb)]

theorem bindingTypes_getElem? {bs : List Binding} (h : AnnotationsWritten bs) (i : Nat) :
    (bindingTypes bs).1[i]? = bs[i]?.map fun b => typeBefore b (bs.drop (i + 1)) := by
  induction bs generalizing i with
  | nil => rfl
  | cons b bs ih =>
    have hrest : AnnotationsWritten bs := fun b hb => h b (List.mem_cons_of_mem _ hb)
    rw [(bindingTypes_cons bs (h b List.mem_cons_self)).1]
    cases i with
    | zero =>
      rw [carried_eq_trailingType hrest]
      rfl
    | succ i => simpa using ih hrest i

/-! ### The members -/

theorem membersOfBindings_getElem? (head : Head) (keyword : VariableKeyword) {bs : List Binding}
    (h : AnnotationsWritten bs) (i : Nat) :
    (membersOfBindings head keyword bs)[i]? =
      bs[i]?.map fun b => memberOfBinding head keyword b (typeBefore b (bs.drop (i + 1))) := by
  rw [membersOfBindings, List.getElem?_zipWith, bindingTypes_getElem? h]
  cases bs[i]? <;> rfl

theorem length_bindingTypes (bs : List Binding) : (bindingTypes bs).1.length = bs.length := by
  induction bs with
  | nil => rfl
  | cons b bs ih =>
    rw [bindingTypes, List.length_cons, ← ih]
    split
    next types carried hbs =>
      rw [hbs]
      split
      · rfl
      · split <;> rfl

theorem length_membersOfBindings (head : Head) (keyword : VariableKeyword) (bs : List Binding) :
    (membersOfBindings head keyword bs).length = bs.length := by
  rw [membersOfBindings, List.length_zipWith, length_bindingTypes, Nat.min_self]

theorem propertyWrapper?_eq_none_iff {head : Head} :
    propertyWrapper? head = none ↔ ∀ a ∈ head.attributes, a.wrapsProperty = false := by
  simp [propertyWrapper?, Swift.Attribute.wrapsProperty]

/-- What is kept of a binding whether it becomes a property or not, and when it becomes one. -/
theorem memberOfBinding_spec (head : Head) (keyword : VariableKeyword) (b : Binding) (type : Option String) :
    let m := memberOfBinding head keyword b type
    m.name = b.name ∧ m.modifiers = head.modifierNames ∧ m.position = some head.position ∧
      ((∃ p, m = .property p) ↔ b.isPattern = false ∧ ∀ a ∈ head.attributes, a.wrapsProperty = false) ∧
      ∀ p, m = .property p → p.type = type := by
  rw [← propertyWrapper?_eq_none_iff]
  intro m
  unfold m memberOfBinding
  cases hp : b.isPattern with
  | true => simp [Member.name, Member.modifiers, Member.position]
  | false =>
    cases hw : propertyWrapper? head with
    | some wrapper => simp [Member.name, Member.modifiers, Member.position]
    | none =>
      refine ⟨rfl, rfl, rfl, by simp, fun p hm => ?_⟩
      cases hm
      rfl

/-- Each binding of a variable is one member, with the name of the binding and what the declaration has in front.
It is a property unless it is a pattern or the declaration has a property wrapper, and then its type is its own
or, if it is bare, the trailing one. -/
theorem variableMembers_follow_trailing_types (head : Head) (keyword : VariableKeyword) (bs : List Binding)
    (h : AnnotationsWritten bs) :
    let members := membersOfDecl (.variableList head keyword bs)
    members.length = bs.length ∧
      ∀ i b, bs[i]? = some b → ∃ m, members[i]? = some m ∧ m.name = b.name ∧
        m.modifiers = head.modifierNames ∧ m.position = some head.position ∧
        ((∃ p, m = .property p) ↔ b.isPattern = false ∧ ∀ a ∈ head.attributes, a.wrapsProperty = false) ∧
        ∀ p, m = .property p → p.type = typeBefore b (bs.drop (i + 1)) := by
  refine ⟨length_membersOfBindings head keyword bs, fun i b hi => ?_⟩
  refine ⟨memberOfBinding head keyword b (typeBefore b (bs.drop (i + 1))), ?_, memberOfBinding_spec ..⟩
  show (membersOfBindings head keyword bs)[i]? = _
  rw [membersOfBindings_getElem? head keyword h, hi]
  rfl

/-- The bindings of `var a, b: Int, c, d = 1, (e, f), g: Bool`. -/
def mixedBindings : List Binding :=
  [⟨"a", none, none, none, false⟩, ⟨"b", some "Int", none, none, false⟩, ⟨"c", none, none, none, false⟩,
    ⟨"d", none, some "1", none, false⟩, ⟨"(e, f)", none, none, none, true⟩, ⟨"g", some "Bool", none, none, false⟩]

theorem mixedBindings_follow_trailing_types :
    AnnotationsWritten mixedBindings ∧
      (membersOfDecl (.variableList ⟨[], [], ⟨1, 1⟩⟩ .varKeyword mixedBindings)).length = 6 ∧
      (mixedBindings.mapIdx fun i b => typeBefore b (mixedBindings.drop (i + 1))) =
        [some "Int", some "Int", none, none, some "Bool", some "Bool"] :=
  have written : AnnotationsWritten mixedBindings := by
    unfold AnnotationsWritten
    decide
  ⟨written, (variableMembers_follow_trailing_types ⟨[], [], ⟨1, 1⟩⟩ .varKeyword mixedBindings written).1, by decide⟩

end TestHooks
