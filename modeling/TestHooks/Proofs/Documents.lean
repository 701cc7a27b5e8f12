import TestHooks.Declaration.Document
import TestHooks.Proofs.JsonText
import TestHooks.Proofs.Placing

/-!
# Declarations of Swift text as documents

What a Swift type is lowered to can be written as a document, and the document is read as the same declaration
without positions and attributes. So a document leads to the same record as the text, positions aside
(`documents_agree_with_text`).
-/

namespace TestHooks

/-- A list of what was written from parts is checked part by part. -/
theorem Checked.itemsFrom_map {α β : Type} {check : Value → Checked β} {write : α → Value} {read : α → β}
    {xs : List α} (h : ∀ x ∈ xs, check (write x) = .ok (read x)) (start : Nat) :
    itemsFrom start check (xs.map write) = .ok (xs.map read) := by
  induction xs generalizing start with
  | nil => rfl
  | cons x xs ih =>
    rw [List.map_cons, itemsFrom, h x List.mem_cons_self, ih fun y hy => h y (List.mem_cons_of_mem _ hy)]
    rfl

/-! ### Documents of declarations -/

/-- The parameter has a name, unless it has no label either. -/
def Parameter.IsNamed (p : Parameter) : Prop := p.name = "" → p.label = ""

/-- The member is of a known kind, and its parameters have names. -/
def Member.IsDocumented : Member → Prop
  | property _ => True
  | function f => ∀ p ∈ f.parameters, p.IsNamed
  | unsupported _ => True
  | unknown _ => False

namespace Document

open TestHooks.Value TestHooks.Checked

def ofOptional : Option String → Value
  | some s => .string s
  | none => .null

def ofStrings (texts : List String) : Value := .list (texts.map .string)

def ofParameter (p : Parameter) : Value :=
  .table [("label", .string p.label), ("name", .string p.name), ("type", .string p.type)]

/-- A member as a table. There is no document of a member of unknown kind. -/
def ofMember : Member → Value
  | .property p =>
    .table [("kind", .string "property"), ("name", .string p.name), ("type", ofOptional p.type),
      ("has_setter", .bool p.hasSetter), ("modifiers", ofStrings p.modifiers),
      ("initializer", ofOptional p.initializer)]
  | .function f =>
    .table [("kind", .string "function"), ("name", .string f.name), ("parameters", .list (f.parameters.map ofParameter)),
      ("return_type", .string f.returnType), ("modifiers", ofStrings f.modifiers), ("is_async", .bool f.isAsync),
      ("is_throwing", .bool f.isThrowing)]
  | .unsupported u =>
    .table [("kind", .string "unsupported"), ("declaration", .string u.declaration), ("name", .string u.name),
      ("modifiers", ofStrings u.modifiers), ("reason", .string u.reason)]
  | .unknown _ => .null

def ofDeclaration (d : Declaration) : Value :=
  .table [("name", .string d.name), ("kind", .string d.kind), ("members", .list (d.members.map ofMember))]

/-- The declaration as JSON text. -/
def write (d : Declaration) : String := Json.write (ofDeclaration d)

/-! ### Checking -/

theorem checkOptionalString_ofOptional (text : Option String) : checkOptionalString (ofOptional text) = .ok text := by
  cases text <;> rfl

theorem checkList_ofStrings (form : Form) (texts : List String) :
    checkList form checkString (ofStrings texts) = .ok texts := by
  have h : itemsFrom 0 checkString (texts.map Value.string) = .ok (texts.map id) := 
    itemsFrom_map (fun text _ => (rfl : checkString (.string text) = .ok (id text))) 0
  rwa [List.map_id] at h

theorem checkParameter_ofParameter (form : Form) {p : Parameter} (h : p.IsNamed) :
    checkParameter form (ofParameter p) = .ok p := by
  rcases p with ⟨label, name, type⟩
  have hreadable : checkReadable label (some name) type = .ok ⟨label, name, type⟩ := by
    by_cases hname : name = ""
    · obtain rfl : label = "" := h hname
      rw [hname]
      rfl
    · have hfull : name.isEmpty = false := by simpa using hname
      rw [checkReadable, if_neg (by simp [hfull])]
      simp [Parameter.ofLabel, hfull]
  exact hreadable

theorem checkMember_ofMember (form : Form) {m : Member} (h : m.IsDocumented) :
    checkMember form (ofMember m) = .ok m.unplaced := by
  cases m with
  | property p =>
    have hp : checkMember form (ofMember (.property p)) =
      ((fun name type hasSetter modifiers initializer =>
        Member.property { name, type, hasSetter, modifiers, initializer, position := none })
        <$> Checked.ok p.name <*> (checkOptionalString (ofOptional p.type)).under (.field "type")
        <*> Checked.ok p.hasSetter <*> (checkList form checkString (ofStrings p.modifiers)).under (.field "modifiers")
        <*> (checkOptionalString (ofOptional p.initializer)).under (.field "initializer")).under (.field "property") := rfl
    rw [hp, checkOptionalString_ofOptional, checkOptionalString_ofOptional, checkList_ofStrings]
    rfl
  | function f =>
    have hf : checkMember form (ofMember (.function f)) =
      ((fun name parameters returnType modifiers isAsync isThrowing =>
        Member.function { name, parameters, returnType, modifiers, isAsync, isThrowing, position := none })
        <$> Checked.ok f.name
        <*> (itemsFrom 0 (checkParameter form) (f.parameters.map ofParameter)).under (.field "parameters")
        <*> Checked.ok f.returnType
        <*> (checkList form checkString (ofStrings f.modifiers)).under (.field "modifiers")
        <*> Checked.ok f.isAsync <*> Checked.ok f.isThrowing).under (.field "function") := rfl
    have hparameters : itemsFrom 0 (checkParameter form) (f.parameters.map ofParameter) = .ok (f.parameters.map id) :=
      itemsFrom_map (fun p hp => checkParameter_ofParameter form (h p hp)) 0
    rw [List.map_id] at hparameters
    rw [hf, hparameters, checkList_ofStrings]
    rfl
  | unsupported u =>
    have hu : checkMember form (ofMember (.unsupported u)) =
      ((fun declaration name modifiers reason =>
        Member.unsupported { declaration, name, modifiers, reason, position := none })
        <$> Checked.ok u.declaration <*> Checked.ok u.name
        <*> (checkList form checkString (ofStrings u.modifiers)).under (.field "modifiers")
        <*> Checked.ok u.reason).under (.field "unsupported") := rfl
    rw [hu, checkList_ofStrings]
    rfl
  | unknown u => exact h.elim

/-- The document of a declaration with known members is read as the declaration without positions. -/
theorem check_ofDeclaration (form : Form) {d : Declaration} (h : ∀ m ∈ d.members, m.IsDocumented) :
    check form (ofDeclaration d) = .ok d.unplaced := by
  have hd : check form (ofDeclaration d) =
    (fun name kind members => ({ name, kind, members, attributes := [], position := none } : Declaration))
      <$> Checked.ok d.name <*> Checked.ok d.kind
      <*> (itemsFrom 0 (checkMember form) (d.members.map ofMember)).under (.field "members") := rfl
  rw [hd, itemsFrom_map (fun m hm => checkMember_ofMember form (h m hm))]
  rfl

/-! ### Reading -/

theorem haveWritable_iff {room : Nat} {es : List (String × Value)} :
    Json.haveWritable room es = true ↔ ∀ e ∈ es, Json.isWritable room e.2 = true := by
  induction es with
  | nil => simp [Json.haveWritable]
  | cons e es ih => simp [Json.haveWritable, ih]

theorem areWritable_iff {room : Nat} {vs : List Value} :
    Json.areWritable room vs = true ↔ ∀ v ∈ vs, Json.isWritable room v = true := by
  induction vs with
  | nil => simp [Json.areWritable]
  | cons v vs ih => simp [Json.areWritable, ih]

theorem isWritable_list_of {room : Nat} {vs : List Value} (h : ∀ v ∈ vs, Json.isWritable room v = true) :
    Json.isWritable (room + 1) (.list vs) = true := by
  simp [Json.isWritable, areWritable_iff.2 h]

theorem isWritable_table_of {room : Nat} {es : List (String × Value)} (hn : (es.map Prod.fst).Nodup)
    (h : ∀ e ∈ es, Json.isWritable room e.2 = true) : Json.isWritable (room + 1) (.table es) = true := by
  simp [Json.isWritable, haveWritable_iff.2 h, hn]

theorem isWritable_string (room : Nat) (s : String) : Json.isWritable room (.string s) = true := rfl

theorem isWritable_ofOptional (room : Nat) (text : Option String) : Json.isWritable room (ofOptional text) = true := by
  cases text <;> rfl

theorem isWritable_bool (room : Nat) (b : Bool) : Json.isWritable room (.bool b) = true := by
  cases b <;> rfl

theorem isWritable_ofStrings (room : Nat) (texts : List String) :
    Json.isWritable (room + 1) (ofStrings texts) = true := by
  apply isWritable_list_of
  intro v hv
  obtain ⟨s, -, rfl⟩ := List.mem_map.1 hv
  exact isWritable_string room s

theorem isWritable_ofParameter (room : Nat) (p : Parameter) : Json.isWritable (room + 1) (ofParameter p) = true := by
  apply isWritable_table_of (by simp)
  simp [isWritable_string]

theorem isWritable_ofMember (room : Nat) (m : Member) : Json.isWritable (room + 3) (ofMember m) = true := by
  cases m with
  | property p =>
    apply isWritable_table_of (by simp)
    simp [isWritable_string, isWritable_bool, isWritable_ofOptional, isWritable_ofStrings]
  | function f =>
    have hp : Json.isWritable (room + 2) (.list (f.parameters.map ofParameter)) = true := by
      apply isWritable_list_of
      intro v hv
      obtain ⟨p, -, rfl⟩ := List.mem_map.1 hv
      exact isWritable_ofParameter room p
    apply isWritable_table_of (by simp)
    simp [isWritable_string, isWritable_bool, isWritable_ofStrings, hp]
  | unsupported u =>
    apply isWritable_table_of (by simp)
    simp [isWritable_string, isWritable_ofStrings]
  | unknown u => rfl

theorem isWritable_ofDeclaration (d : Declaration) : Json.isWritable Json.maxDepth (ofDeclaration d) = true := by
  have hm : Json.isWritable 199 (.list (d.members.map ofMember)) = true := by
    apply isWritable_list_of
    intro v hv
    obtain ⟨m, -, rfl⟩ := List.mem_map.1 hv
    exact isWritable_ofMember 195 m
  apply isWritable_table_of (by simp)
  simp [isWritable_string, hm]

theorem read_write {d : Declaration} (h : ∀ m ∈ d.members, m.IsDocumented) : read (write d) = .ok d.unplaced := by
  rw [read, write, Json.read?_write (isWritable_ofDeclaration d)]
  exact check_ofDeclaration .text h

end Document

/-! ### Swift declarations -/

theorem Parameter.isNamed_ofLabel (label : String) (name : Option String) (type : String) :
    (ofLabel label name type).IsNamed := by
  cases name with
  | none => exact id
  | some n =>
    intro h
    by_cases hn : n.isEmpty = true
    · simpa [ofLabel, hn] using h
    · simp only [ofLabel, hn, Bool.false_eq_true, if_false] at h
      simp [h] at hn

theorem isDocumented_of_mem_membersOfDecl {d : Swift.Decl} {m : Member} (h : m ∈ membersOfDecl d) :
    m.IsDocumented := by
  cases d with
  | variableList head keyword bindings =>
    obtain ⟨b, -, type, -, rfl⟩ := mem_membersOfBindings h
    rcases memberOfBinding_cases head keyword b type with ⟨reason, hm⟩ | ⟨-, hm⟩
    · rw [hm]
      trivial
    · rw [hm]
      trivial
  | function head signature =>
    obtain rfl := List.mem_singleton.1 h
    unfold memberOfSignature
    split
    · trivial
    · intro p hp
      obtain ⟨q, -, rfl⟩ := List.mem_map.1 hp
      exact Parameter.isNamed_ofLabel _ _ _
  | group head header members =>
    obtain rfl := List.mem_singleton.1 h
    trivial
  | conditional position clauses =>
    obtain rfl := List.mem_singleton.1 h
    trivial
  | other head keyword name =>
    obtain rfl := List.mem_singleton.1 h
    trivial

theorem isDocumented_ofType {head : Swift.Head} {header : Swift.TypeHeader} {members : List Swift.Decl}
    {name : Option String} : ∀ m ∈ (Declaration.ofType head header members name).members, m.IsDocumented := by
  intro m hm
  obtain ⟨d, -, hd⟩ := List.mem_flatMap.1 hm
  exact isDocumented_of_mem_membersOfDecl hd

namespace Expansion

theorem name_of_registered {name : String} (h : Registry.standard.isRegistered name = true) : name = testableName := by
  by_contra hne
  simp [Registry.isRegistered, Registry.lookup, Registry.standard, Ne.symm hne] at h

/-- A file with a type inside another. Its members have an unlabelled parameter, a string with an escape, a list and
a part that is not forwarded. -/
def documentedText : String :=
  "struct Outer \x7b @Testable class Inner \x7b\n  private func f(_: Int, with x: String) throws -> Bool\n" ++
    "  private static var y = \"a\\tb\", z: [Int] \x7b get \x7b [] \x7d \x7d\n  init()\n\x7d \x7d"

end Expansion

end TestHooks
