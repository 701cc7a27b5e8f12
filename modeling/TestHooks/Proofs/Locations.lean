import TestHooks.Proofs.Faults
import TestHooks.Proofs.Nodes
import TestHooks.Proofs.Reports
import TestHooks.Proofs.Tiling

/-!
# Where diagnostics point

A diagnostic on a file that has a position points at the beginning of a token of the file, or at the place where its
lexemes end too early (`diagnostics_locate`). Positions are handed on from tokens to declarations, members and
diagnostics; none is taken from the generated text.
-/

namespace TestHooks.Swift

open TestHooks.Reader TestHooks.Text Reader

/-! ### Positions of tokens -/

/-- A token stands where the characters before it end. -/
theorem start_of_mem {es : List Element} {read gap rest : List Char} {t : Token}
    (ht : t ∈ Token.ofElements (Place.origin.advance read) gap es) :
    t.start = Place.origin.advance ((read ++ (es.flatMap Element.text ++ rest)).take t.start.offset) := by
  induction es generalizing read gap with
  | nil => cases ht
  | cons e es ih =>
    have hoffset : (Place.origin.advance read).offset = read.length := by
      rw [Place.offset_advance]
      exact Nat.zero_add _
    have hmore {gap : List Char} (hm : t ∈ Token.ofElements ((Place.origin.advance read).advance e.text) gap es) :
        t.start = Place.origin.advance
          ((read ++ ((e :: es).flatMap Element.text ++ rest)).take t.start.offset) := by
      rw [← Place.advance_append] at hm
      have := ih hm
      rwa [List.append_assoc, ← List.append_assoc e.text, ← List.flatMap_cons] at this
    rw [Token.ofElements] at ht
    split at ht
    · rcases List.mem_cons.1 ht with rfl | hm
      · rw [hoffset, List.take_left]
      · exact hmore hm
    · exact hmore ht

theorem position_of_mem {text : String} {t : Token} (ht : t ∈ (Tokens.ofText text).tokens) :
    t.position = positionAt text t.start.offset := by
  have h := @start_of_mem _ [] _ (Cut.ofText text.toList).unread t ht
  rw [List.nil_append, flatten_append_unread] at h
  rw [Token.position, positionAt, ← h]

theorem place_pos (cs : List Char) : 1 ≤ (Place.origin.advance cs).line ∧ 1 ≤ (Place.origin.advance cs).column := by
  have hpos : ∀ p : Place, 1 ≤ p.line ∧ 1 ≤ p.column → 1 ≤ (p.advance cs).line ∧ 1 ≤ (p.advance cs).column := by
    induction cs with
    | nil => exact fun _ hp => hp
    | cons c cs ih =>
      intro p hp
      apply ih
      unfold Place.next
      split
      · exact ⟨Nat.le_add_left 1 _, Nat.le_refl 1⟩
      · exact ⟨hp.1, Nat.le_add_left 1 _⟩
  exact hpos _ ⟨Nat.le_refl 1, Nat.le_refl 1⟩

/-! ### Positions of declarations -/

def Decl.position : Decl → Position
  | .group head _ _ => head.position
  | .variableList head _ _ => head.position
  | .function head _ => head.position
  | .conditional position _ => position
  | .other head _ _ => head.position

/-- A declaration stands where the first of its tokens stands. -/
theorem ReadAmong.position {ts : List Token} {d : Decl} (h : ReadAmong ts d) : ∃ t ∈ ts, d.position = t.position := by
  have hhead {t k : Token} {more rest : List Token} {head : Head} (hs : t :: more <:+ ts)
      (hh : (headFrom t).run (t :: more) = .ok (head, k :: rest)) : ∃ t ∈ ts, head.position = t.position := by
    obtain ⟨after, -, -, hp⟩ := headFrom_cases hh
    exact ⟨t, hs.subset List.mem_cons_self, hp⟩
  cases h with
  | conditional hs => exact ⟨_, hs.subset List.mem_cons_self, rfl⟩
  | directive hs => exact ⟨_, hs.subset List.mem_cons_self, rfl⟩
  | group hs hh _ _ => exact hhead hs hh
  | variableList hs hh _ => exact hhead hs hh
  | function hs hh _ => exact hhead hs hh
  | other hs hh _ => exact hhead hs hh

/-- An attribute begins with a token. -/
theorem ReadAmong.attribute {ts : List Token} {head : Head} {header : TypeHeader} {members : List Decl}
    (h : ReadAmong ts (.group head header members)) {a : Attribute} (ha : a ∈ head.attributes) :
    ∃ t ∈ ts, a.start = t.start := by
  cases h with
  | group hs hh _ _ =>
    obtain ⟨after, has, -, -⟩ := headFrom_cases hh
    obtain ⟨u, us, left, hu, -, hrun, -⟩ := whileNext_forall has a ha
    exact ⟨u, hs.subset (hu.subset List.mem_cons_self), (attributeAfter_cases hrun).2.1⟩

end TestHooks.Swift

namespace TestHooks

open TestHooks.Swift (Decl Head Binding VariableKeyword)

/-! ### Positions of members -/

/-- A member has the position of its declaration. -/
theorem position_of_membersOfDecl {d : Decl} {m : Member} (h : m ∈ membersOfDecl d) : m.position = some d.position := by
  cases d with
  | group head header members =>
    cases List.mem_singleton.1 h
    rfl
  | variableList head keyword bindings =>
    obtain ⟨b, -, type, -, rfl⟩ := mem_membersOfBindings h
    rcases memberOfBinding_cases head keyword b type with ⟨reason, hm⟩ | ⟨-, hm⟩
    · rw [hm]
      rfl
    · rw [hm]
      rfl
  | function head signature =>
    cases List.mem_singleton.1 h
    unfold memberOfSignature
    split <;> rfl
  | conditional position clauses =>
    cases List.mem_singleton.1 h
    rfl
  | other head keyword name =>
    cases List.mem_singleton.1 h
    rfl

namespace Expansion

open TestHooks.Swift TestHooks.Proxy

/-! ### Positions of diagnostics -/

/-- A report points at members. -/
theorem position_of_report {settings : Settings} {ms : List Member} {e : Diagnostic} (h : e ∈ report settings ms) :
    ∃ m ∈ ms, e.position = m.position := by
  have hwarning {b : Bucket} (hw : e ∈ ((Matcher.ofSettings settings).inBucket b ms).filterMap (placeholderWarning? settings)) :
      ∃ m ∈ ms, e.position = m.position := by
    obtain ⟨m, hm, he⟩ := List.mem_filterMap.1 hw
    refine ⟨m, List.mem_of_mem_filter hm, ?_⟩
    unfold placeholderWarning? at he
    split at he
    · split at he
      · cases he
        rfl
      · cases he
    · cases he
  simp only [report, List.mem_append] at h
  rcases h with ((h | h) | h) | h
  · obtain ⟨m, hm, rfl⟩ := List.mem_map.1 h
    exact ⟨m, List.mem_of_mem_filter hm, rfl⟩
  · obtain ⟨m, hm, rfl⟩ := Option.map_eq_some_iff.1 (Option.mem_toList.1 h)
    have hforwarded := List.mem_append_left ((Matcher.ofSettings settings).leftOut ms) (List.mem_of_find?_eq_some hm)
    exact ⟨m, ((Matcher.ofSettings settings).forwarded_append_leftOut_perm ms).mem_iff.1 hforwarded, rfl⟩
  · exact hwarning h
  · exact hwarning h

theorem position_of_complaint? {code : String} {site : Option Position} {e : Diagnostic}
    (h : complaint? code site = some e) : e.position = site := by
  obtain ⟨message, rfl⟩ := complaint?_cases h
  rfl

/-- What is recorded on a declaration points at its attribute or at one of its members. -/
theorem position_of_testable {marker : Marker} {d : Declaration} {typeName : String} {settings : Settings}
    {e : Diagnostic} (h : e ∈ (testable marker d typeName settings).diagnostics) :
    e.position = marker.position ∨ ∃ m ∈ d.members, e.position = m.position := by
  by_cases hkind : supportedKinds.contains d.kind = true
  · rw [testable_supported marker typeName hkind, diagnostics_settle, List.mem_append] at h
    rcases h with h | h
    · right
      obtain ⟨e, he, rfl⟩ := List.mem_map.1 h
      rw [noticesOf_eq_report] at he
      rw [Diagnostic.promote_position]
      exact position_of_report he
    · split at h
      · cases h
      · exact .inl (position_of_complaint? (Option.mem_toList.1 h))
  · rw [Bool.not_eq_true] at hkind
    rw [testable_unsupported marker typeName hkind] at h
    cases List.mem_singleton.1 h
    exact .inl rfl

/-! ### Annotated types -/

mutual

/-- An annotated type is a declaration of the tree, and so is all that it holds. The mark is an attribute of it. -/
theorem nodes_annotatedIn {registered : String → Bool} {outer : Option String} {d : Decl} {x : AnnotatedType}
    (h : x ∈ annotatedIn registered outer d) :
    x.mark ∈ x.head.attributes ∧ nodesOf (.group x.head x.header x.members) ⊆ nodesOf d := by
  cases d with
  | group head header members =>
    rw [annotatedIn] at h
    rcases List.mem_append.1 h with h | h
    · obtain ⟨a, ha, rfl⟩ := List.mem_map.1 h
      exact ⟨List.mem_of_mem_filter ha, List.Subset.refl _⟩
    · obtain ⟨hm, hn⟩ := nodes_annotatedAmong h
      rw [nodesOf]
      exact ⟨hm, List.subset_cons_of_subset _ hn⟩
  | variableList => cases h
  | function => cases h
  | conditional => cases h
  | other => cases h

theorem nodes_annotatedAmong {registered : String → Bool} {outer : Option String} {ds : List Decl} {x : AnnotatedType}
    (h : x ∈ annotatedAmong registered outer ds) :
    x.mark ∈ x.head.attributes ∧ nodesOf (.group x.head x.header x.members) ⊆ nodesAmong ds := by
  cases ds with
  | nil => cases h
  | cons d ds =>
    rw [annotatedAmong] at h
    rw [nodesAmong]
    rcases List.mem_append.1 h with h | h
    · obtain ⟨hm, hn⟩ := nodes_annotatedIn h
      exact ⟨hm, List.subset_append_of_subset_left _ hn⟩
    · obtain ⟨hm, hn⟩ := nodes_annotatedAmong h
      exact ⟨hm, List.subset_append_of_subset_right _ hn⟩

end

/-- The attribute and the members of an annotated type stand where tokens of the file stand. -/
theorem positions_of_found {registry : Registry} {text : String} {x : AnnotatedType} (hx : x ∈ foundIn registry text) :
    (∃ t ∈ (Tokens.ofText text).tokens, x.marker.position = some t.position) ∧
      ∀ m ∈ x.declaration.members, ∃ t ∈ (Tokens.ofText text).tokens, m.position = some t.position := by
  obtain ⟨ds, hparse, hx⟩ := mem_foundIn_cases hx
  have hread := nodes_parse hparse
  obtain ⟨hmark, hnodes⟩ := nodes_annotatedAmong hx
  constructor
  · obtain ⟨t, ht, hs⟩ := (hread _ (hnodes (mem_nodesOf_self _))).attribute hmark
    exact ⟨t, ht, by rw [AnnotatedType.marker, hs, Token.position]⟩
  · intro m hm
    obtain ⟨d, hd, hmd⟩ := List.mem_flatMap.1 hm
    obtain ⟨t, ht, hp⟩ := (hread d (hnodes (mem_nodesOf_member hd))).position
    exact ⟨t, ht, by rw [position_of_membersOfDecl hmd, hp]⟩

/-! ### Files -/

/-- A place of the text: the first character of a token, or the character at which no element stands. -/
def Locates (text : String) (p : Position) : Prop :=
  (∃ t ∈ (Tokens.ofText text).tokens, p = positionAt text t.start.offset) ∨
    (Tokens.ofText text).failure ≠ none ∧ p = positionAt text (reachOf text)

theorem Locates.pos {text : String} {p : Position} (h : Locates text p) : 1 ≤ p.line ∧ 1 ≤ p.column := by
  rcases h with ⟨t, -, rfl⟩ | ⟨-, rfl⟩
  · exact place_pos _
  · exact place_pos _

theorem locates_token {text : String} {t : Token} (ht : t ∈ (Tokens.ofText text).tokens) : Locates text t.position :=
  .inl ⟨t, ht, position_of_mem ht⟩

theorem locates_of_parse {text : String} {e : SyntaxError} (h : Swift.parse text = .error e) {p : Position}
    (hp : e.position = some p) : Locates text p := by
  rcases fault_of_parse h with hf | hn | ⟨t, ht, hs⟩
  · rcases failure_cases text with ⟨hx, -⟩ | ⟨c, more, fault, -, -, hx⟩
    · rw [hf] at hx
      cases hx
    · rw [hf] at hx
      cases hx
      cases hp
      exact .inr ⟨by rw [hf]; nofun, rfl⟩
  · rw [hn] at hp
    cases hp
  · rw [hs] at hp
    cases hp
    exact locates_token ht

theorem locates_of_record {settings : Settings} {text : String} {r : Record}
    (hr : r ∈ (expandFile .standard settings text).records) {e : Diagnostic} (he : e ∈ r.diagnostics) {p : Position}
    (hp : e.position = some p) : Locates text p := by
  rw [records_standard] at hr
  obtain ⟨x, hx, rfl⟩ := List.mem_map.1 hr
  rw [runGenerator, diagnostics_ofOutcome (testable_consistent _ _ _ _)] at he
  obtain ⟨⟨t, ht, hmark⟩, hmembers⟩ := positions_of_found hx
  rcases position_of_testable he with h | ⟨m, hm, h⟩
  · rw [h, hmark] at hp
    cases hp
    exact locates_token ht
  · obtain ⟨u, hu, hs⟩ := hmembers m hm
    rw [h, hs] at hp
    cases hp
    exact locates_token hu

/-- A diagnostic of a run, or of one of its records, that has a position points at the first character of a token of the
file, or at the character at which no element stands. Lines and columns are counted from 1. -/
theorem diagnostics_locate {settings : Settings} {text : String} {e : Diagnostic}
    (he : e ∈ (expandFile .standard settings text).diagnostics ∨
      ∃ r ∈ (expandFile .standard settings text).records, e ∈ r.diagnostics) {p : Position}
    (hp : e.position = some p) : Locates text p ∧ 1 ≤ p.line ∧ 1 ≤ p.column := by
  have hlocates : Locates text p := by
    rcases he with he | ⟨r, hr, he⟩
    · cases hparse : Swift.parse text with
      | error fault =>
        rw [expandFile_of_error .standard settings hparse] at he
        cases List.mem_singleton.1 he
        exact locates_of_parse hparse hp
      | ok ds =>
        rw [diagnostics_expandFile .standard settings hparse] at he
        obtain ⟨r, hr, he⟩ := List.mem_flatMap.1 he
        exact locates_of_record hr he hp
    · exact locates_of_record hr he hp
  exact ⟨hlocates, hlocates.pos⟩

def protocolText : String := "class A \x7b\x7d\n@Testable protocol P \x7b\x7d"

def unendedText : String := "let a = \"x"

/-- The attribute of a protocol is pointed at, and so is a string that does not end. -/
theorem protocolText_located :
    ((expandFile .standard {} protocolText).diagnostics =
        [unsupportedKind ⟨testableName, some ⟨2, 1⟩⟩ ⟨"P", "protocol", [], [], none⟩] ∧ Locates protocolText ⟨2, 1⟩) ∧
      (expandFile .standard {} unendedText).diagnostics = [⟨.error, "Unterminated string literal", some ⟨1, 9⟩⟩] ∧
        Locates unendedText ⟨1, 9⟩ := by
  have hprotocol : (expandFile .standard {} protocolText).diagnostics =
      [unsupportedKind ⟨testableName, some ⟨2, 1⟩⟩ ⟨"P", "protocol", [], [], none⟩] := by
    decide +kernel
  have hopen : (expandFile .standard {} unendedText).diagnostics =
      [⟨.error, "Unterminated string literal", some ⟨1, 9⟩⟩] := by
    decide +kernel
  refine ⟨⟨hprotocol, ?_⟩, hopen, ?_⟩
  · exact (diagnostics_locate (.inl (by rw [hprotocol]; exact List.mem_cons_self)) rfl).1
  · exact (diagnostics_locate (.inl (by rw [hopen]; exact List.mem_cons_self)) rfl).1

end Expansion

end TestHooks
