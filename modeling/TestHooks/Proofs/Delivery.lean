import TestHooks.Proofs.Isolation
import TestHooks.Proofs.Runs
import TestHooks.Proofs.Shown

/-!
# What the command that expands a file puts out

The command ends well exactly when its items, its input, its settings and the expansion are in order, and then all of
the code is put out, in one place. Otherwise it puts out nothing (`all_or_nothing`). A run either stops before anything
is expanded, with one message, or puts out what was made of the text (`cases_of_run`).

The messages of a run hold the paths and the items as they are, so they can be shown if none of these closes a style.
With a closing tag in a path the code is written, but the message on that cannot be shown (`written_untold`).
-/

namespace TestHooks

theorem Text.joinTexts_singleton (sep text : String) : joinTexts sep [text] = text := by
  rw [joinTexts, List.map_singleton, joinWith, String.ofList_toList]

/-! ### Items -/

namespace Settings

variable {items : List String}

theorem item?_eq_none_iff {item : String} : item? item = none ↔ '=' ∉ item.toList := by
  rw [item?]
  cases hrest : item.toList.drop (item.toList.takeWhile (· != '=')).length with
  | nil =>
    have hkey := List.prefix_append_drop (List.takeWhile_prefix (l := item.toList) (· != '='))
    rw [hrest, List.append_nil] at hkey
    refine iff_of_true rfl fun hmem => ?_
    rw [hkey] at hmem
    exact absurd (List.mem_takeWhile_imp hmem) (by decide)
  | cons c value =>
    refine iff_of_false nofun fun hmem => ?_
    have hkey : item.toList.takeWhile (· != '=') = item.toList := by
      rw [List.takeWhile_eq_self_iff]
      exact fun c hc => bne_iff_ne.2 fun heq => hmem (heq ▸ hc)
    rw [hkey, List.drop_length] at hrest
    cases hrest

theorem item_of_addItems_error {entries : List (String × Value)} {message : String}
    (h : addItems entries items = .error message) : ∃ item ∈ items, message = invalidItemMessage item := by
  induction items generalizing entries with
  | nil => cases h
  | cons item items ih =>
    rw [addItems] at h
    split at h
    · obtain ⟨other, hother, hmessage⟩ := ih h
      exact ⟨other, List.mem_cons_of_mem item hother, hmessage⟩
    · exact ⟨item, List.mem_cons_self, (Except.error.inj h).symm⟩

theorem addItems_isOk_iff (entries : List (String × Value)) :
    (∃ overrides, addItems entries items = .ok overrides) ↔ ∀ item ∈ items, '=' ∈ item.toList := by
  induction items generalizing entries with
  | nil => exact iff_of_true ⟨entries, rfl⟩ fun item hitem => absurd hitem List.not_mem_nil
  | cons item items ih =>
    rw [addItems, List.forall_mem_cons]
    cases hitem : item? item with
    | none =>
      refine iff_of_false ?_ fun hall => item?_eq_none_iff.1 hitem hall.1
      rintro ⟨overrides, hoverrides⟩
      cases hoverrides
    | some entry =>
      have hmem : '=' ∈ item.toList := by
        by_contra hnot
        rw [item?_eq_none_iff.2 hnot] at hitem
        cases hitem
      rw [and_iff_right hmem]
      exact ih _

end Settings

namespace CommandLine

open TestHooks.Expansion TestHooks.Log TestHooks.Markup TestHooks.Text

variable {settings : Settings} {path : FilePath} {out : Option FilePath} {text : String} {product : Product}

/-! ### What is made of a text -/

/-- The text can be expanded: a document holds a declaration, and there are no errors. -/
def Sound (settings : Settings) (path : FilePath) (text : String) : Prop :=
  if isDocument path then
    ∃ d record, Document.read text = .ok d ∧ expandDeclaration? .standard settings d = some record ∧
      ∀ e ∈ record.diagnostics, e.isError = false
  else ∀ e ∈ (expandFile .standard settings text).diagnostics, e.isError = false

/-- What is made of the text is the code: the only extension of a document, with a line break, or the Swift text. -/
def Makes (settings : Settings) (path : FilePath) (text code : String) : Prop :=
  if isDocument path then
    ∃ d record extension, Document.read text = .ok d ∧ expandDeclaration? .standard settings d = some record ∧
      record.extensions = [extension] ∧ code = extension ++ "\n"
  else code = (expandFile .standard settings text).code

theorem hasErrors_eq_false_iff : product.hasErrors = false ↔ ∀ e ∈ product.diagnostics, e.isError = false := by
  rw [Product.hasErrors, List.any_eq_false]
  simp

/-- Code that reads back is not empty. -/
theorem not_isEmpty_of_no_complaint {code : String} {site : Option Position} (h : Proxy.complaint? code site = none) :
    ¬ code.isEmpty = true := by
  intro hempty
  obtain ⟨head, header, members, hparse, -⟩ := complaint?_eq_none_iff.1 h
  have hnothing : (Swift.parse "").toOption.map List.length = some 0 := by decide +kernel
  rw [← String.isEmpty_iff.1 hempty, hparse] at hnothing
  cases hnothing

theorem extensionText_of_success {marker : Marker} {d : Declaration}
    (h : (runGenerator settings testable marker d).success = true) :
    ∃ extension, (runGenerator settings testable marker d).extensions = [extension] ∧
      extensionText (runGenerator settings testable marker d) = extension ++ "\n" := by
  obtain ⟨hextensions, hcomplaint⟩ := extension_of_success h
  refine ⟨_, hextensions, ?_⟩
  rw [extensionText, hextensions, joinTexts_singleton]
  exact if_neg (not_isEmpty_of_no_complaint hcomplaint)

theorem success_of_no_error {marker : Marker} {d : Declaration}
    (h : ∀ e ∈ (runGenerator settings testable marker d).diagnostics, e.isError = false) :
    (runGenerator settings testable marker d).success = true :=
  (consistent_ofOutcome (testable_consistent _ _ _ _) marker d).success_iff_no_error.2 h

theorem sound_iff_product :
    Sound settings path text ↔ ∃ product, productOf settings path text = .ok product ∧ product.hasErrors = false := by
  rw [Sound, productOf]
  split_ifs
  · constructor
    · rintro ⟨d, record, hread, hrecord, hsound⟩
      rw [expandDeclaration_standard] at hrecord
      obtain rfl := Option.some.inj hrecord
      rw [hread]
      exact ⟨_, rfl, hasErrors_eq_false_iff.2 hsound⟩
    · rintro ⟨product, hproduct, herrors⟩
      split at hproduct
      · next d hread =>
        obtain rfl := Except.ok.inj hproduct
        exact ⟨d, _, hread, expandDeclaration_standard settings d, hasErrors_eq_false_iff.1 herrors⟩
      · cases hproduct
  · constructor
    · exact fun hsound => ⟨_, rfl, hasErrors_eq_false_iff.2 hsound⟩
    · rintro ⟨product, hproduct, herrors⟩
      obtain rfl := Except.ok.inj hproduct
      exact hasErrors_eq_false_iff.1 herrors

theorem makes_of_product (h : productOf settings path text = .ok product) (herrors : product.hasErrors = false) :
    Makes settings path text product.code := by
  rw [productOf] at h
  rw [Makes]
  split_ifs at h ⊢
  · split at h
    · next d hread =>
      obtain rfl := Except.ok.inj h
      have hsuccess := success_of_no_error (hasErrors_eq_false_iff.1 herrors)
      obtain ⟨extension, hextensions, htext⟩ := extensionText_of_success hsuccess
      exact ⟨d, _, extension, hread, expandDeclaration_standard settings d, hextensions, htext⟩
    · cases h
  · obtain rfl := Except.ok.inj h
    rfl

theorem invalid_of_product_error {message : Message} (h : productOf settings path text = .error message) :
    ∃ complaints, message = invalidDeclaration path complaints := by
  rw [productOf] at h
  split_ifs at h
  split at h
  · cases h
  · next complaints _ => exact ⟨complaints, (Except.error.inj h).symm⟩

/-! ### What is put out -/

/-- All of the code goes to the file that is asked for, or else to the output. -/
def Puts (out : Option FilePath) (code : String) (o : Outcome) : Prop :=
  match out with
  | some file => o.output = "" ∧ o.written = some (file, code)
  | none => o.output = code ∧ o.written = none

theorem deliver_of_errors (h : product.hasErrors = true) :
    product.deliver path out =
      .failed 1
        (product.notices ++ product.diagnostics.map (.diagnostic (some path.text)) ++ [expansionFailed path]) := by
  unfold Product.deliver
  rw [if_pos h]

theorem deliver_puts (h : product.hasErrors = false) :
    (product.deliver path out).exitCode = 0 ∧ Puts out product.code (product.deliver path out) := by
  unfold Product.deliver
  rw [if_neg (by rw [h]; exact Bool.false_ne_true)]
  cases out with
  | none => exact ⟨rfl, rfl, rfl⟩
  | some file => exact ⟨rfl, rfl, rfl⟩

theorem log_of_no_errors (h : product.hasErrors = false) :
    (product.deliver path out).log =
      product.notices ++ product.diagnostics.map (.diagnostic (some path.text)) ++
        out.toList.map fun file => expansionWritten path file product.expanded := by
  unfold Product.deliver
  rw [if_neg (by rw [h]; exact Bool.false_ne_true)]
  cases out with
  | none => exact (List.append_nil _).symm
  | some file => rfl

theorem hasErrors_of_exit (h : (product.deliver path out).exitCode = 0) : product.hasErrors = false := by
  rw [← Bool.not_eq_true]
  intro herrors
  rw [deliver_of_errors herrors] at h
  cases h

/-! ### Runs -/

/-- The message of a run that stops before anything is expanded. -/
inductive Refusal (path : FilePath) (items : List String) : Message → Prop
  | item {item : String} (hmem : item ∈ items) : Refusal path items (.error (Settings.invalidItemMessage item))
  | input : Refusal path items (inputNotFound path)
  | settings (complaints : List Complaint) : Refusal path items (invalidSettings complaints)
  | declaration (complaints : List Complaint) : Refusal path items (invalidDeclaration path complaints)

/-- A run has read its input and its settings. -/
structure Prepared (items : List String) (strict : Bool) (inputs : Inputs) (settings : Settings) (text : String) :
    Prop where
  keyed : ∀ item ∈ items, '=' ∈ item.toList
  found : inputs.text.map Text.readLines = some text
  loaded : ∃ overrides, Settings.ofItems items = .ok overrides ∧
    Settings.load inputs.settings overrides (if strict then some true else none) = .ok (.ok settings)

/-- The paths and the items of a run have no tags that close a style. -/
structure Tellable (path : FilePath) (out : Option FilePath) (items : List String) : Prop where
  path : ¬ Closes path.text.toList
  out : ∀ file ∈ out, ¬ Closes file.text.toList
  items : ∀ item ∈ items, ¬ Closes item.toList

variable {name : String} {items : List String} {outName : Option String} {strict : Bool} {inputs : Inputs} {o : Outcome}

/-- A run stops before anything is expanded, or puts out what is made of the text. -/
theorem cases_of_run (h : Request.run ⟨.expand outName strict, name, items⟩ inputs = .ok o) :
    (∃ exitCode message, o = .failed exitCode [message] ∧ exitCode ≠ 0 ∧ Refusal (.ofString name) items message) ∨
      ∃ settings text product, Prepared items strict inputs settings text ∧
        productOf settings (.ofString name) text = .ok product ∧
        o = product.deliver (.ofString name) (outName.map .ofString) := by
  rw [Request.run] at h
  cases hitems : Settings.ofItems items with
  | error message =>
    rw [hitems] at h
    obtain ⟨item, hmem, rfl⟩ := Settings.item_of_addItems_error hitems
    exact .inl ⟨2, _, (Except.ok.inj h).symm, by decide, .item hmem⟩
  | ok overrides =>
    rw [hitems] at h
    obtain rfl | ⟨complaints, rfl⟩ | ⟨raw, settings, htext, hload, rfl⟩ := cases_of_withInput h
    · exact .inl ⟨1, _, rfl, by decide, .input⟩
    · exact .inl ⟨1, _, rfl, by decide, .settings complaints⟩
    · have hkeyed := (Settings.addItems_isOk_iff []).1 ⟨overrides, hitems⟩
      have hprepared : Prepared items strict inputs settings (readLines raw) :=
        ⟨hkeyed, by rw [htext]; rfl, overrides, hitems, hload⟩
      rw [expandWith]
      cases hproduct : productOf settings (.ofString name) (readLines raw) with
      | ok product => exact .inr ⟨settings, _, product, hprepared, hproduct, rfl⟩
      | error message =>
        obtain ⟨complaints, rfl⟩ := invalid_of_product_error hproduct
        exact .inl ⟨1, _, rfl, by decide, .declaration complaints⟩

theorem run_of_prepared (h : Prepared items strict inputs settings text)
    (hproduct : productOf settings (.ofString name) text = .ok product) :
    Request.run ⟨.expand outName strict, name, items⟩ inputs =
      .ok (product.deliver (.ofString name) (outName.map .ofString)) := by
  obtain ⟨overrides, hitems, hload⟩ := h.loaded
  obtain ⟨raw, hraw, rfl⟩ := Option.map_eq_some_iff.1 h.found
  have hrun : expand (.ofString name) (outName.map .ofString) strict overrides inputs =
      .ok (expandWith (.ofString name) (outName.map .ofString) settings (readLines raw)) := withInput_of_load hraw hload
  rw [Request.run, hitems]
  dsimp only
  rw [hrun, expandWith, hproduct]

/-! ### Messages of runs -/

theorem not_mem_digits {c : Char} (hc : c.isDigit = false) (n : Nat) : c ∉ (toString n).toList := by
  intro hmem
  have hdigit := Nat.isDigit_of_mem_toDigits (by decide) (by decide) (Nat.toList_repr ▸ hmem)
  rw [hc] at hdigit
  cases hdigit

theorem not_mem_summary {c : Char} {title : String} (hc : c.isDigit = false)
    (hn : c ∉ " validation errors for ".toList) (ht : c ∉ title.toList) (complaints : List Complaint) :
    c ∉ (Complaint.summary title complaints).toList := by
  have hnouns : ∀ c ∈ " validation error for ".toList, c ∈ " validation errors for ".toList := by decide
  rw [Complaint.summary, String.toList_append, String.toList_append, List.mem_append, List.mem_append]
  rintro ((h | h) | h)
  · exact not_mem_digits hc _ h
  · split_ifs at h
    · exact hn (hnouns c h)
    · exact hn h
  · exact ht h

theorem shown_nothingFound (hp : ¬ Closes path.text.toList) : (nothingFound path).seen?.isSome = true := by
  apply Message.seen_of_shows
  rw [nothingFound, Message.info, String.toList_append, String.toList_append]
  refine shows_plain_append (by decide) (by decide) (shows_plain_append (by decide) (by decide) ?_)
  exact shows_styled_only (by decide) (by decide) hp

theorem shown_expansionWritten {target : FilePath} (hp : ¬ Closes path.text.toList) (ho : ¬ Closes target.text.toList)
    (count : Nat) : (expansionWritten path target count).seen?.isSome = true := by
  apply Message.seen_of_shows
  have hlast : Shows (Message.styled "path" target.text).toList := shows_styled_only (by decide) (by decide) ho
  rw [expansionWritten, Message.success]
  simp only [String.toList_append, List.append_assoc]
  refine shows_plain_append (by decide) (by decide) (shows_plain_append (by decide) (by decide) ?_)
  refine shows_plain_append (not_mem_digits rfl count) (not_mem_digits rfl count) ?_
  refine shows_plain_append (by decide) (by decide) (Message.shows_path hp ?_)
  exact shows_plain_append (by decide) (by decide) hlast

theorem shown_expansionFailed (hp : ¬ Closes path.text.toList) : (expansionFailed path).seen?.isSome = true :=
  Message.seen_error_of_name (by decide) (by decide) hp

theorem shown_refusal {m : Message} (hp : ¬ Closes path.text.toList) (hi : ∀ item ∈ items, ¬ Closes item.toList)
    (h : Refusal path items m) : m.seen?.isSome = true := by
  have hsummary {c : Char} {title : String} := @not_mem_summary c title
  cases h with
  | item hmem =>
    unfold Settings.invalidItemMessage
    rw [String.append_assoc]
    exact Message.seen_error (by decide) (by decide) (hi _ hmem) (by decide) (by decide)
  | input => exact Message.seen_error_of_name (by decide) (by decide) hp
  | settings complaints =>
    rw [invalidSettings]
    apply Message.seen_of_shows
    rw [Message.error, String.toList_append, String.toList_append]
    refine shows_plain_append (by decide) (by decide) (shows_plain_append (by decide) (by decide) ?_)
    exact shows_of_no_open (hsummary rfl (by decide) (by decide) complaints)
  | declaration complaints =>
    have hafter {c : Char} (hc : c ∉ ": ".toList) (hs : c ∉ (Complaint.summary Document.title complaints).toList) :
        c ∉ (": " ++ Complaint.summary Document.title complaints).toList := by
      rw [String.toList_append, List.mem_append, not_or]
      exact ⟨hc, hs⟩
    rw [invalidDeclaration, String.append_assoc, String.append_assoc]
    exact Message.seen_error (by decide) (by decide) hp
      (hafter (by decide) (hsummary rfl (by decide) (by decide) complaints))
      (hafter (by decide) (hsummary rfl (by decide) (by decide) complaints))

theorem notice_of_product (h : productOf settings path text = .ok product) {m : Message} (hm : m ∈ product.notices) :
    m = nothingFound path := by
  rw [productOf] at h
  split_ifs at h
  · split at h
    · obtain rfl := Except.ok.inj h
      cases hm
    · cases h
  · obtain rfl := Except.ok.inj h
    rw [productOfSwift] at hm
    dsimp only at hm
    split_ifs at hm
    · exact List.mem_singleton.1 hm
    · cases hm

/-- The messages of a run are its refusal, or what there was to tell on the way, and how it ended. -/
theorem shown_of_tellable (ht : Tellable (.ofString name) (outName.map .ofString) items)
    (h : Request.run ⟨.expand outName strict, name, items⟩ inputs = .ok o) : ∀ m ∈ o.log, m.seen?.isSome = true := by
  obtain ⟨_, message, rfl, -, hrefusal⟩ | ⟨settings, text, product, -, hproduct, rfl⟩ := cases_of_run h
  · intro m hm
    obtain rfl := List.mem_singleton.1 hm
    exact shown_refusal ht.path ht.items hrefusal
  · have hway : ∀ m ∈ product.notices ++ product.diagnostics.map (.diagnostic (some (FilePath.ofString name).text)),
        m.seen?.isSome = true := by
      rw [List.forall_mem_append, List.forall_mem_map]
      refine ⟨fun m hm => ?_, fun d _ => Message.shown_diagnostic _ d⟩
      rw [notice_of_product hproduct hm]
      exact shown_nothingFound ht.path
    cases herrors : product.hasErrors with
    | true =>
      rw [deliver_of_errors herrors]
      exact List.forall_mem_append.2 ⟨hway, List.forall_mem_singleton.2 (shown_expansionFailed ht.path)⟩
    | false =>
      rw [log_of_no_errors herrors, List.forall_mem_append]
      refine ⟨hway, fun m hm => ?_⟩
      obtain ⟨target, htarget, rfl⟩ := List.mem_map.1 hm
      exact shown_expansionWritten ht.path (ht.out target (Option.mem_toList.1 htarget)) _

end CommandLine

end TestHooks
