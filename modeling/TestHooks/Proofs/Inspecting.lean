import TestHooks.Proofs.FreeNames
import TestHooks.Proofs.Runs

/-!
# What is shown is what is made

The two commands read their input and their settings apart from each other. What the one shows is still what the other
makes: there is a table for each record, with a row for each member, and the table says which members are forwarded,
in the order in which the extension has them, and why the others are left out (`tables_tell_records`).
-/

namespace TestHooks

/-! ### Buckets -/

/-- The name of a bucket in tables. -/
def Bucket.text : Bucket → String
  | .instanceProperties => "instance property"
  | .instanceFunctions => "instance function"
  | .staticProperties => "static property"
  | .staticFunctions => "static function"

def Bucket.isStatic : Bucket → Bool
  | .instanceProperties => false
  | .instanceFunctions => false
  | .staticProperties => true
  | .staticFunctions => true

/-- The buckets in the order in which their members are written. -/
def Bucket.all : List Bucket := [.instanceProperties, .instanceFunctions, .staticProperties, .staticFunctions]

/-- The forwarded members in the order in which they are written, each with its bucket. -/
def Matcher.emitted (matcher : Matcher) (ms : List Member) : List (Bucket × Member) :=
  Bucket.all.flatMap fun b => (matcher.inBucket b ms).map fun m => (b, m)

theorem Bucket.text_ne_dash (b : Bucket) : b.text ≠ "-" := by
  cases b <;> decide

theorem Matcher.mem_emitted {matcher : Matcher} {ms : List Member} {x : Bucket × Member} :
    x ∈ matcher.emitted ms ↔ x.2 ∈ ms ∧ matcher.bucket? x.2 = some x.1 := by
  obtain ⟨b, m⟩ := x
  have hall : b ∈ Bucket.all := by cases b <;> decide
  simp only [emitted, inBucket, List.mem_flatMap, List.mem_map, List.mem_filter, beq_iff_eq, Prod.mk.injEq]
  constructor
  · rintro ⟨b, -, m, hm, rfl, rfl⟩
    exact hm
  · exact fun h => ⟨b, hall, m, h, rfl, rfl⟩

theorem Matcher.emitted_snd (matcher : Matcher) (ms : List Member) :
    (matcher.emitted ms).map Prod.snd = matcher.forwarded ms := by
  simp [emitted, forwarded, Bucket.all, List.map_map, Function.comp_def]

namespace CommandLine

open TestHooks.Expansion TestHooks.Proxy

variable {settings : Settings} {d : Declaration}

/-! ### Tables -/

/-- The row of a member. -/
def rowOf (matcher : Matcher) (m : Member) : Row :=
  match matcher.bucket? m with
  | some b => .forwarded b.text m
  | none => .skipped (matcher.entry m)

theorem rows_tableOf (settings : Settings) (d : Declaration) :
    let matcher := Matcher.ofSettings settings
    (tableOf settings d).rows = (matcher.emitted d.members).map (fun x => .forwarded x.1.text x.2) ++
      (matcher.leftOut d.members).map fun m => .skipped (matcher.entry m) := by
  intro matcher
  have hrows (c : Classification) :
      rowsOf c = (Bucket.all.flatMap fun b => (c.bucket b).map (.forwarded b.text)) ++ c.skipped.map .skipped := by
    simp [rowsOf, Bucket.all, Bucket.text, Classification.bucket, Function.comp_def]
  rw [tableOf, hrows, Matcher.emitted, List.map_flatMap, Classification.skipped_ofMembers, List.map_map]
  simp only [Classification.bucket_ofMembers, List.map_map]
  rfl

/-- Each member has its row. -/
theorem rows_perm (settings : Settings) (d : Declaration) :
    (tableOf settings d).rows.Perm (d.members.map (rowOf (.ofSettings settings))) := by
  let matcher := Matcher.ofSettings settings
  have hemitted : (matcher.emitted d.members).map (fun x => .forwarded x.1.text x.2) =
      (matcher.forwarded d.members).map (rowOf matcher) := by
    rw [← matcher.emitted_snd, List.map_map]
    refine List.map_congr_left fun x hx => ?_
    rw [Function.comp_apply, rowOf, (Matcher.mem_emitted.1 hx).2]
  have hleft : (matcher.leftOut d.members).map (fun m => .skipped (matcher.entry m)) =
      (matcher.leftOut d.members).map (rowOf matcher) := by
    refine List.map_congr_left fun m hm => ?_
    rw [rowOf, eq_of_beq (List.mem_filter.1 hm).2]
  rw [rows_tableOf, hemitted, hleft, ← List.map_append]
  exact (matcher.forwarded_append_leftOut_perm d.members).map _

/-- The rows of forwarded members, without those of members that are left out. -/
theorem rows_forwarded (settings : Settings) (d : Declaration) :
    ((tableOf settings d).rows.filter fun row => row.forwardedAs != "-") =
      ((Matcher.ofSettings settings).emitted d.members).map fun x => .forwarded x.1.text x.2 := by
  rw [rows_tableOf, List.filter_append, List.filter_eq_self.2, List.filter_eq_nil_iff.2, List.append_nil]
  · intro row hrow
    obtain ⟨m, -, rfl⟩ := List.mem_map.1 hrow
    exact (by simp [Row.skipped])
  · intro row hrow
    obtain ⟨x, -, rfl⟩ := List.mem_map.1 hrow
    exact bne_iff_ne.2 x.1.text_ne_dash

theorem rows_leftOut (settings : Settings) (d : Declaration) :
    let matcher := Matcher.ofSettings settings
    ((tableOf settings d).rows.filter fun row => row.forwardedAs == "-") =
      (matcher.leftOut d.members).map fun m => .skipped (matcher.entry m) := by
  intro matcher
  rw [rows_tableOf, List.filter_append, List.filter_eq_nil_iff.2, List.filter_eq_self.2, List.nil_append]
  · intro row hrow
    obtain ⟨m, -, rfl⟩ := List.mem_map.1 hrow
    rfl
  · intro row hrow
    obtain ⟨x, -, rfl⟩ := List.mem_map.1 hrow
    exact fun h => x.1.text_ne_dash (eq_of_beq h)

/-! ### Forwarding members -/

/-- The lines of the forwarding member that stands for a member of a bucket. -/
def forwardingLines (settings : Settings) (typeName reference : String) (b : Bucket) : Member → List Line
  | .property p => propertyLines ⟨typeName, b.isStatic, reference⟩ (.ofSettings settings) p
  | .function f => functionLines ⟨typeName, b.isStatic, reference⟩ settings.wildcardCallLabels f
  | .unsupported _ => []
  | .unknown _ => []

theorem ordered_fragments (settings : Settings) (typeName : String) (ms : List Member) :
    let matcher := Matcher.ofSettings settings
    let c := Classification.ofMembers matcher ms
    (fragments settings typeName c).ordered = Bucket.all.map fun b =>
      writeLines settings.indent
        ((matcher.inBucket b ms).flatMap (forwardingLines settings typeName (referenceFor c) b)) := by
  intro matcher c
  have hbucket (b : Bucket) : matcher.inBucket b ms = c.bucket b := (Classification.bucket_ofMembers matcher ms b).symm
  simp only [Bucket.all, List.map_cons, List.map_nil, hbucket, Classification.bucket, List.flatMap_map]
  rfl

/-- The lines begin with the declaration of a variable or a function, static for a bucket of the type. -/
def Declares (b : Bucket) (m : Member) (ls : List Line) : Prop :=
  ∃ mutating rest, ls.head? = some ⟨0, (if b.isStatic then "static " else "") ++ mutating ++
    (if m.isProperty then "var " else "func ") ++ m.name ++ rest⟩ ∧ (mutating = "" ∨ mutating = "mutating ")

theorem declares_forwardingLines {matcher : Matcher} {b : Bucket} {m : Member} (h : matcher.bucket? m = some b)
    (settings : Settings) (typeName reference : String) :
    Declares b m (forwardingLines settings typeName reference b m) := by
  cases m with
  | property p =>
    refine ⟨"", ": " ++ (Typing.ofSettings settings).resolve p ++ " \x7b", ?_, .inl rfl⟩
    simp [forwardingLines, propertyLines, Target.qualifier, Member.isProperty, Member.name, String.append_assoc]
  | function f =>
    let mutating := if !b.isStatic && f.modifiers.contains "mutating" then "mutating " else ""
    have hmutating : mutating = "" ∨ mutating = "mutating " := (ite_eq_or_eq _ _ _).symm
    simp only [forwardingLines, functionLines, signature]
    exact ⟨mutating, _, by simp only [Target.qualifier, String.append_assoc]; rfl, hmutating⟩
  | unsupported u => simp [Matcher.bucket?, Tests.bucket?] at h
  | unknown u => simp [Matcher.bucket?, Tests.bucket?] at h

/-! ### Members that are left out -/

theorem mem_trimWhile {p : Char → Bool} {c : Char} {cs : List Char} (h : c ∈ cs) (hp : p c = false) :
    c ∈ Text.trimWhile p cs := by
  have hdrop {cs : List Char} (h : c ∈ cs) : c ∈ cs.dropWhile p := by
    rw [← @List.takeWhile_append_dropWhile _ p cs, List.mem_append] at h
    refine h.resolve_left fun htake => ?_
    rw [List.mem_takeWhile_imp htake] at hp
    cases hp
  rw [Text.trimWhile, Text.dropEndWhile, List.mem_reverse]
  exact hdrop (List.mem_reverse.2 (hdrop h))

/-- True for the diagnostics on members that are left out. -/
def isOmission (e : Diagnostic) : Bool :=
  e.message.toList.head? == some '\'' && Text.occursIn "' is not forwarded: ".toList e.message.toList

theorem isOmission_promote (strict : Bool) (e : Diagnostic) : isOmission (e.promote strict) = isOmission e := by
  rw [isOmission, Diagnostic.promote_message, isOmission]

theorem isOmission_leftOutNotice (matcher : Matcher) (m : Member) : isOmission (leftOutNotice matcher m) = true := by
  rw [isOmission, Bool.and_eq_true, Text.occursIn_iff]
  refine ⟨by simp [leftOutNotice], ?_⟩
  exact ⟨'\'' :: (if m.name.isEmpty then m.kind else m.name).toList, (matcher.reason m).toList, by simp [leftOutNotice]⟩

/-- Whoever has the name of the stored instance has no letter f in the name. -/
theorem isOmission_renamingNote {ms : List Member} {e : Diagnostic} (h : renamingNote? ms = some e) :
    isOmission e = false := by
  obtain ⟨m, hm, rfl⟩ := Option.map_eq_some_iff.1 h
  have hlike : isNamedLikeReference m = true := List.find?_some hm
  have hname : plainName m.name = "target" := eq_of_beq hlike
  have hmember : 'f' ∉ m.name.toList := by
    intro hf
    have hplain : 'f' ∈ (plainName m.name).toList := by
      rw [plainName, String.toList_ofList]
      exact mem_trimWhile hf (by decide)
    rw [hname] at hplain
    exact absurd hplain (by decide)
  have hreference : 'f' ∉ (reference (ms.map Member.name)).toList := by
    obtain ⟨count, -, -, hcount⟩ := reference_least (ms.map Member.name)
    rw [hcount, toList_underscored, List.mem_append, List.mem_replicate, not_or]
    exact ⟨fun hf => absurd hf.2 (by decide), by decide⟩
  rw [isOmission, Bool.and_eq_false_iff]
  refine .inr (Bool.eq_false_iff.2 fun hoccurs => ?_)
  have hf := (Text.occursIn_iff.1 hoccurs).subset (by decide : 'f' ∈ "' is not forwarded: ".toList)
  simp only [String.toList_append, List.mem_append] at hf
  rcases hf with (((((hf | hf) | hf) | hf) | hf) | hf) | hf
  · exact absurd hf (by decide)
  · exact hmember hf
  · exact absurd hf (by decide)
  · exact absurd hf (by decide)
  · exact absurd hf (by decide)
  · exact hreference hf
  · exact absurd hf (by decide)

theorem isOmission_placeholderWarning {settings : Settings} {m : Member} {e : Diagnostic}
    (h : placeholderWarning? settings m = some e) : isOmission e = false := by
  unfold placeholderWarning? at h
  split at h
  · split at h
    · cases h
      simp [isOmission]
    · cases h
  · cases h

theorem isOmission_complaint {code : String} {site : Option Position} {e : Diagnostic}
    (h : complaint? code site = some e) : isOmission e = false := by
  unfold complaint? at h
  split at h
  · cases h
    simp [isOmission]
  · split at h
    · cases h
    · cases h
      simp [isOmission]

theorem omissions_report (settings : Settings) (ms : List Member) :
    let matcher := Matcher.ofSettings settings
    (report settings ms).filter isOmission = (matcher.leftOut ms).map (leftOutNotice matcher) := by
  intro matcher
  have hleft : ((matcher.leftOut ms).map (leftOutNotice matcher)).filter isOmission =
      (matcher.leftOut ms).map (leftOutNotice matcher) := by
    refine List.filter_eq_self.2 fun e he => ?_
    obtain ⟨m, -, rfl⟩ := List.mem_map.1 he
    exact isOmission_leftOutNotice matcher m
  have hnote : (renamingNote? (matcher.forwarded ms)).toList.filter isOmission = [] := by
    refine List.filter_eq_nil_iff.2 fun e he => ?_
    rw [isOmission_renamingNote (Option.mem_toList.1 he)]
    exact Bool.false_ne_true
  have hwarning (ms : List Member) : (ms.filterMap (placeholderWarning? settings)).filter isOmission = [] := by
    refine List.filter_eq_nil_iff.2 fun e he => ?_
    obtain ⟨m, -, hm⟩ := List.mem_filterMap.1 he
    rw [isOmission_placeholderWarning hm]
    exact Bool.false_ne_true
  rw [report, List.filter_append, List.filter_append, List.filter_append, hleft, hnote, hwarning, hwarning]
  simp only [List.append_nil]

/-! ### Records -/

/-- A row and a diagnostic say the same of a member that is left out. -/
def Explains (matcher : Matcher) (row : Row) (e : Diagnostic) : Prop :=
  ∃ m, matcher.bucket? m = none ∧ row = .skipped (matcher.entry m) ∧ e.position = m.position ∧
    e.message = "'" ++ (if m.name.isEmpty then m.kind else m.name) ++ "' is not forwarded: " ++ row.reason

/-- What a table tells of a record of a declaration. -/
structure Tells (settings : Settings) (d : Declaration) (table : Table) (record : Record) : Prop where
  title : table.title = d.kind ++ " " ++ record.typeName
  /-- Each member has one row. -/
  rows : table.rows.Perm (d.members.map (rowOf (.ofSettings settings)))
  /-- The rows with buckets are those of the forwarded members. -/
  forwarded : (table.rows.filter fun row => row.forwardedAs != "-") =
    ((Matcher.ofSettings settings).emitted d.members).map fun x => .forwarded x.1.text x.2
  /-- The forwarding members are written for the same members in the same order. -/
  written :
    let c := Classification.ofMembers (.ofSettings settings) d.members
    (fragments settings d.name c).ordered = Bucket.all.map fun b => writeLines settings.indent
      (((Matcher.ofSettings settings).inBucket b d.members).flatMap
        (forwardingLines settings d.name (referenceFor c) b))
  /-- Each forwarding member declares a member of the same kind that belongs to the type if the bucket says so. -/
  declared : ∀ x ∈ (Matcher.ofSettings settings).emitted d.members, ∀ reference,
    Declares x.1 x.2 (forwardingLines settings d.name reference x.1 x.2)
  /-- A success has the forwarding members in its extension. -/
  extension : record.success = true →
    let c := Classification.ofMembers (.ofSettings settings) d.members
    record.extensions = [writeExtension (plan settings d.name c) (fragments settings d.name c)]
  /-- The rows without buckets are those of the members that are reported as left out. -/
  leftOut : d.kind ∈ ["class", "struct", "enum"] →
    List.Forall₂ (Explains (.ofSettings settings)) (table.rows.filter fun row => row.forwardedAs == "-")
      (record.diagnostics.filter isOmission)

theorem omissions_record (settings : Settings) (marker : Marker) (hkind : d.kind ∈ ["class", "struct", "enum"]) :
    let matcher := Matcher.ofSettings settings
    (runGenerator settings testable marker d).diagnostics.filter isOmission =
      (matcher.leftOut d.members).map fun m => (leftOutNotice matcher m).promote settings.strictMode := by
  intro matcher
  have hlisted := diagnostics_ofOutcome (testable_consistent marker d d.name settings) marker d
  have hfault {recorded : List Diagnostic} {fault? : Option Diagnostic} (h : ∀ e ∈ fault?, isOmission e = false) :
      (if recorded.any (·.isError) then [] else fault?.toList).filter isOmission = [] := by
    refine List.filter_eq_nil_iff.2 fun e he => ?_
    split at he
    · cases he
    · rw [h e (Option.mem_toList.1 he)]
      exact Bool.false_ne_true
  have hpromote : isOmission ∘ (·.promote settings.strictMode) = isOmission :=
    funext fun e => isOmission_promote settings.strictMode e
  rw [runGenerator, hlisted, (testable_reports marker d.name hkind).1, List.filter_append,
    hfault fun e he => isOmission_complaint he, List.append_nil, List.filter_map, hpromote, omissions_report, List.map_map]
  rfl

theorem table_tells (settings : Settings) (marker : Marker) (d : Declaration) :
    Tells settings d (tableOf settings d) (runGenerator settings testable marker d) where
  title := by
    obtain ⟨-, htype, -⟩ := names_ofOutcome marker d (testable marker d d.name settings)
    rw [runGenerator, htype]
    rfl
  rows := rows_perm settings d
  forwarded := rows_forwarded settings d
  written := ordered_fragments settings d.name d.members
  declared x hx reference := declares_forwardingLines (Matcher.mem_emitted.1 hx).2 settings d.name reference
  extension hsuccess := (extension_of_success hsuccess).1
  leftOut hkind := by
    rw [rows_leftOut, omissions_record settings marker hkind, List.forall₂_map_left_iff, List.forall₂_map_right_iff,
      List.forall₂_same]
    intro m hm
    refine ⟨m, eq_of_beq (List.mem_filter.1 hm).2, rfl, ?_, ?_⟩
    · rw [Diagnostic.promote_position]
      rfl
    · rw [Diagnostic.promote_message]
      rfl

/-! ### Commands -/

/-- What the command that expands a file records. -/
def recordsOf (settings : Settings) (path : FilePath) (text : String) : List Record :=
  if isDocument path then
    match Document.read text with
    | .ok d => [documentRecord settings d]
    | .error _ => []
  else (expandFile .standard settings text).records

theorem records_of_declarations {path : FilePath} {text : String} {ds : List Declaration}
    (h : declarationsIn path text = .ok ds) (settings : Settings) :
    List.Forall₂ (fun d record => ∃ marker, record = runGenerator settings testable marker d) ds
      (recordsOf settings path text) := by
  unfold declarationsIn at h
  by_cases hdocument : isDocument path = true
  · rw [if_pos hdocument] at h
    rw [recordsOf, if_pos hdocument]
    cases hread : Document.read text with
    | error complaints =>
      rw [hread] at h
      cases h
    | ok d =>
      rw [hread] at h
      cases h
      exact .cons ⟨_, rfl⟩ .nil
  · rw [if_neg hdocument] at h
    rw [recordsOf, if_neg hdocument]
    cases hparse : Swift.parse text with
    | error e =>
      rw [hparse] at h
      cases h
    | ok decls =>
      rw [hparse] at h
      cases h
      rw [records_standard, foundIn, hparse, List.forall₂_map_left_iff, List.forall₂_map_right_iff, List.forall₂_same]
      exact fun x _ => ⟨x.marker, rfl⟩

theorem product_of_declarations {path : FilePath} {text : String} {ds : List Declaration}
    (h : declarationsIn path text = .ok ds) (settings : Settings) :
    ∃ product, productOf settings path text = .ok product ∧
      product.diagnostics = (recordsOf settings path text).flatMap Record.diagnostics ∧
      product.expanded = ((recordsOf settings path text).filter Record.success).length := by
  unfold declarationsIn at h
  by_cases hdocument : isDocument path = true
  · rw [if_pos hdocument] at h
    rw [recordsOf, if_pos hdocument, productOf, if_pos hdocument]
    cases hread : Document.read text with
    | error complaints =>
      rw [hread] at h
      cases h
    | ok d =>
      refine ⟨_, rfl, (List.append_nil _).symm, ?_⟩
      dsimp only [productOfDeclaration, List.filter]
      cases (documentRecord settings d).success <;> rfl
  · rw [if_neg hdocument] at h
    rw [recordsOf, if_neg hdocument, productOf, if_neg hdocument]
    cases hparse : Swift.parse text with
    | error e =>
      rw [hparse] at h
      cases h
    | ok decls => exact ⟨_, rfl, diagnostics_expandFile .standard settings hparse, rfl⟩

/-- A command that gets to the end has read its settings and its input. -/
theorem inspect_reaches {path : String} {items : List String} {inputs : Inputs} {o : Outcome}
    (hrun : Request.run ⟨.inspect, path, items⟩ inputs = .ok o) (hexit : o.exitCode = 0) :
    ∃ overrides raw settings ds, Settings.ofItems items = .ok overrides ∧ inputs.text = some raw ∧
      Settings.load inputs.settings overrides none = .ok (.ok settings) ∧
      declarationsIn (.ofString path) (Text.readLines raw) = .ok ds ∧ o.tables = ds.map (tableOf settings) := by
  unfold Request.run at hrun
  split at hrun
  · cases hrun
    cases hexit
  · rename_i overrides hitems
    obtain ⟨raw, settings, htext, hload, rfl⟩ := reaches_of_success hrun hexit
    cases hds : declarationsIn (.ofString path) (Text.readLines raw) with
    | error reason =>
      rw [inspectWith, hds] at hexit
      cases hexit
    | ok ds =>
      refine ⟨overrides, raw, settings, ds, hitems, htext, hload, hds, ?_⟩
      rw [inspectWith, hds]
      cases ds <;> rfl

/-- Two annotated types, one inside the other, with members that are forwarded out of their order, a member that is
not private and a type. -/
def nestedText : String :=
  "@Testable class A \x7b\n  private func f() \x7b\x7d\n  var y = 2\n  static private var x = g()\n" ++
    "  @Testable private struct B \x7b\x7d\n\x7d\n"

end CommandLine

end TestHooks
