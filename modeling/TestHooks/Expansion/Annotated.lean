import TestHooks.Swift.Tree

/-!
# Annotated types

The types of a file that carry an attribute somebody has registered. Types inside types are named with the names
of the types around them. Conditional blocks are not searched.
-/

namespace TestHooks.Expansion

open TestHooks.Swift (Attribute Decl Head TypeHeader)

/-- A type with one of its attributes, under its full name. -/
structure AnnotatedType where
  head : Head
  header : TypeHeader
  members : List Decl
  name : String
  mark : Attribute

/-- The name of a type inside another. -/
def qualify (outer : Option String) (name : String) : String :=
  match outer with
  | some o => if o.isEmpty then name else o ++ "." ++ name
  | none => name

/-- One entry for each registered attribute of a type. -/
def annotationsOf (registered : String → Bool) (head : Head) (header : TypeHeader) (members : List Decl)
    (name : String) : List AnnotatedType :=
  (head.attributes.filter fun a => registered a.name).map fun a => ⟨head, header, members, name, a⟩

mutual

/-- The annotated types in a declaration, in the order of their attributes. -/
def annotatedIn (registered : String → Bool) (outer : Option String) : Decl → List AnnotatedType
  | .group head header members =>
    let name := qualify outer header.name
    annotationsOf registered head header members name ++ annotatedAmong registered (some name) members
  | _ => []

def annotatedAmong (registered : String → Bool) (outer : Option String) : List Decl → List AnnotatedType
  | [] => []
  | d :: ds => annotatedIn registered outer d ++ annotatedAmong registered outer ds

end

theorem annotatedAmong_append (registered : String → Bool) (outer : Option String) (ds es : List Decl) :
    annotatedAmong registered outer (ds ++ es) =
      annotatedAmong registered outer ds ++ annotatedAmong registered outer es := by
  induction ds with
  | nil => rw [annotatedAmong, List.nil_append, List.nil_append]
  | cons d ds ih => rw [List.cons_append, annotatedAmong, annotatedAmong, ih, List.append_assoc]

end TestHooks.Expansion
