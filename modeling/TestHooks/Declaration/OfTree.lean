import TestHooks.Declaration
import TestHooks.Swift.Tree
import TestHooks.Text.Uppercase

/-!
# Declarations of Swift types

Each binding of a variable is a member of its own. In `var a, b: Int` the annotation holds for both. What cannot
be forwarded becomes an unsupported member with a reason.
-/

namespace TestHooks

open TestHooks.Swift (Accessor Binding Decl Effect Head Signature TypeHeader VariableKeyword)

/-! ### Variables -/

/-- Attributes that begin with an upper case letter and wrap no property. -/
def builtinAttributes : List String :=
  ["MainActor", "IBOutlet", "IBInspectable", "IBAction", "IBSegueAction", "NSManaged", "NSCopying", "GKInspectable",
    "Sendable"]

/-- The first property wrapper among the attributes. -/
def propertyWrapper? (head : Head) : Option String :=
  (head.attributes.map Swift.Attribute.name).find? fun name =>
    name.toList.head?.any Text.isUpper && !builtinAttributes.contains name

/-- A text that is there and not empty. -/
def nonEmpty? (text : Option String) : Option String :=
  text.filter (!·.isEmpty)

/-- The types of bindings, and the type that a bare binding before them takes. -/
def bindingTypes : List Binding → List (Option String) × Option String
  | [] => ([], none)
  | b :: bs =>
    let (types, carried) := bindingTypes bs
    match nonEmpty? b.type with
    | some type => (some type :: types, some type)
    | none =>
      if b.initializer.isNone && b.accessors.isNone then (carried :: types, carried) else (none :: types, none)

/-- Accessors that write the variable or observe that it is written. -/
def Swift.Accessor.isSetter (a : Accessor) : Bool :=
  [Accessor.set, .willSet, .didSet, .modify, .unsafeMutableAddress, .init].contains a

/-- A constant has no setter; a variable has one unless its accessors only read. -/
def hasSetter (keyword : VariableKeyword) (b : Binding) : Bool :=
  keyword == .varKeyword && b.accessors.all (·.any (·.isSetter))

def memberOfBinding (head : Head) (keyword : VariableKeyword) (b : Binding) (type : Option String) : Member :=
  let skip (reason : String) : Member :=
    .unsupported ⟨keyword.text, b.name, head.modifierNames, reason, some head.position⟩
  if b.isPattern then skip "destructuring patterns are not supported"
  else
    match propertyWrapper? head with
    | some wrapper => skip ("property wrapper @" ++ wrapper ++ " is not supported")
    | none =>
      .property ⟨b.name, type, hasSetter keyword b, head.modifierNames, b.initializer, some head.position⟩

def membersOfBindings (head : Head) (keyword : VariableKeyword) (bs : List Binding) : List Member :=
  bs.zipWith (memberOfBinding head keyword) (bindingTypes bs).1

theorem mem_membersOfBindings {head : Head} {keyword : VariableKeyword} {bs : List Binding} {m : Member}
    (h : m ∈ membersOfBindings head keyword bs) :
    ∃ b ∈ bs, ∃ type ∈ (bindingTypes bs).1, m = memberOfBinding head keyword b type := by
  obtain ⟨i, hi, rfl⟩ := List.getElem_of_mem h
  have hboth : i < min bs.length (bindingTypes bs).1.length := by rwa [membersOfBindings, List.length_zipWith] at hi
  have hb : i < bs.length := (Nat.lt_min.1 hboth).1
  have ht : i < (bindingTypes bs).1.length := (Nat.lt_min.1 hboth).2
  exact ⟨bs[i], List.getElem_mem hb, (bindingTypes bs).1[i], List.getElem_mem ht, List.getElem_zipWith⟩

/-- A binding stands for a property, or for a member that cannot be forwarded. -/
theorem memberOfBinding_cases (head : Head) (keyword : VariableKeyword) (b : Binding) (type : Option String) :
    (∃ reason, memberOfBinding head keyword b type =
        .unsupported ⟨keyword.text, b.name, head.modifierNames, reason, some head.position⟩) ∨
      b.isPattern = false ∧ memberOfBinding head keyword b type =
        .property ⟨b.name, type, hasSetter keyword b, head.modifierNames, b.initializer, some head.position⟩ := by
  unfold memberOfBinding
  dsimp only
  split
  · exact .inl ⟨_, rfl⟩
  · next hp =>
    split
    · exact .inl ⟨_, rfl⟩
    · exact .inr ⟨Bool.eq_false_iff.2 hp, rfl⟩

/-! ### Functions -/

/-- Why the function cannot be forwarded. -/
def unsupportedReason? (s : Signature) : Option String :=
  if s.isOperator then some "operator functions are not supported"
  else if (nonEmpty? s.generics).isSome then some "generic functions are not supported"
  else if s.parameters.any (·.isVariadic) then some "variadic parameters cannot be forwarded"
  else none

def memberOfSignature (head : Head) (s : Signature) : Member :=
  match unsupportedReason? s with
  | some reason => .unsupported ⟨"func", s.name, head.modifierNames, reason, some head.position⟩
  | none =>
    .function {
      name := s.name
      parameters := s.parameters.map fun p => .ofLabel p.firstName p.secondName p.type
      returnType := s.returnType.getD ""
      modifiers := head.modifierNames
      isAsync := s.effects.contains .async
      isThrowing := s.effects.contains .throws || s.effects.contains .rethrows
      position := some head.position }

theorem unsupportedReason?_eq_none {s : Signature} (h : unsupportedReason? s = none) :
    s.isOperator = false ∧ s.parameters.any (·.isVariadic) = false := by
  unfold unsupportedReason? at h
  split at h
  · cases h
  · next ho =>
    split at h
    · cases h
    · split at h
      · cases h
      · next hv => exact ⟨Bool.eq_false_iff.2 ho, Bool.eq_false_iff.2 hv⟩

/-! ### Types -/

/-- The member of a declaration of which only the position is known. -/
def Member.bare (position : Position) : Member :=
  .unsupported ⟨"DeclNode", "", [], Unsupported.plainReason, some position⟩

/-- The members that a declaration stands for. -/
def membersOfDecl : Decl → List Member
  | .variableList head keyword bindings => membersOfBindings head keyword bindings
  | .function head signature => [memberOfSignature head signature]
  | .group head header _ =>
    [.unsupported ⟨header.keyword.text, header.name, head.modifierNames, "nested types are not supported",
      some head.position⟩]
  | .conditional position _ =>
    [.unsupported ⟨"#if", "", [], "conditionally compiled members are not forwarded", some position⟩]
  | .other head keyword name =>
    [.unsupported ⟨keyword, name, head.modifierNames, "'" ++ keyword ++ "' declarations are not supported",
      some head.position⟩]

/-- The declaration of a Swift type, under its own name unless another is given. -/
def Declaration.ofType (head : Head) (header : TypeHeader) (members : List Decl) (name : Option String := none) :
    Declaration where
  name := (nonEmpty? name).getD header.name
  kind := header.keyword.text
  members := members.flatMap membersOfDecl
  attributes := head.attributes.map fun a => ⟨a.name, some a.start.toPosition⟩
  position := some head.position

end TestHooks
