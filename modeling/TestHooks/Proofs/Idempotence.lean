import TestHooks.Proofs.Appending
import TestHooks.Proofs.Isolation
import TestHooks.Proofs.Layout

/-!
# Expanding twice

The expansion of a file has nothing left to expand: it is read again, its registered attributes are gone, and the
extensions bring no new ones (`expansion_is_idempotent`). An attribute that touches a word before it glues this word to
the one behind it (`gluedText_expanded`).
-/

namespace TestHooks.Expansion

open TestHooks.Proxy TestHooks.Swift TestHooks.Text

/-! ### What is left of the text -/

theorem dropEndWhile_append_left {p : Char → Bool} {front : List Char} (hf : ∀ c ∈ front.getLast?, p c = false)
    (cs : List Char) : dropEndWhile p (front ++ cs) = front ++ dropEndWhile p cs := by
  obtain ⟨ds, hsplit, hds, hlast⟩ := dropEndWhile_split p cs
  conv => lhs; rw [hsplit, ← List.append_assoc]
  refine dropEndWhile_append hds fun c hc => ?_
  rw [List.getLast?_append] at hc
  cases hl : (dropEndWhile p cs).getLast? with
  | none =>
    rw [hl, Option.none_or] at hc
    exact hf c hc
  | some d =>
    rw [hl, Option.some_or, Option.some.injEq] at hc
    subst hc
    exact hlast d hl

/-- Line breaks at the end of a text can be taken off. -/
theorem legible_dropEndWhile {ts : List Token} {final : List Char} (h : Legible final ts) (hg : Gap [] final) :
    LegibleText (dropEndWhile (· == '\n') (Token.written ts ++ final)) ts := by
  obtain ⟨breaks, hsplit, hbreaks, -⟩ := dropEndWhile_split (· == '\n') final
  have hbreak : ∀ c ∈ breaks, c = '\n' := fun c hc => beq_iff_eq.1 (hbreaks c hc)
  have hlast : ∀ c ∈ (Token.written ts).getLast?, (c == '\n') = false := by
    intro c hc
    rw [beq_eq_false_iff_ne]
    exact newline_of_not_blank (last_of_legible h c hc)
  refine ⟨dropEndWhile (· == '\n') final, dropEndWhile_append_left hlast final, ?_, ?_⟩
  · have hr := ((show Separated [] from rfl).replaces breaks).append (dropEndWhile (· == '\n') final)
    rw [List.append_nil, ← hsplit] at hr
    exact h.replace hr
  · rw [hsplit] at hg
    exact hg.without_blanks (fun c hc => hbreak c hc ▸ isBlank_newline) (.inl rfl)

/-- The tokens without the attributes are read from the text without their spans. -/
theorem stripped_text {text : String} {ds : List Decl} {ts us : List Token} {final : List Char}
    (h : Swift.parse text = .ok ds) (hts : (Tokens.ofText text).tokens = ts)
    (htext : text.toList = Token.written ts ++ final) (hl : Legible final ts) (hg : Gap [] final)
    (ht : Trimmed ts ((foundIn .standard text).map AnnotatedType.mark) us)
    (hglue : Unglued ((foundIn .standard text).map AnnotatedType.mark) ts) :
    LegibleText (dropEndWhile (· == '\n')
      (removeSpans text.toList ((foundIn .standard text).map AnnotatedType.span))) us := by
  have hstanding := Token.standing_ofText text
  rw [hts] at hstanding
  have hplaced : Placed 0 ts := placed_of_offsets fun {before t after} hb => by
    rw [hstanding.offset hb, Nat.zero_add]
  have hfits : ∀ t ∈ ts, ∃ after, t.element.Fits after := by
    rw [← hts]
    exact fun t ht => fits_of_mem (fitting_ofText text.toList) ht
  have hspans : (foundIn .standard text).map AnnotatedType.span =
      ((foundIn .standard text).map AnnotatedType.mark).map Attribute.span := by
    rw [List.map_map]
    rfl
  have hapart : Apart text.toList ((foundIn .standard text).map AnnotatedType.span) := by
    rw [foundIn_of_parse _ h]
    exact spans_apart _ h
  have hremoved : removeSpans text.toList ((foundIn .standard text).map AnnotatedType.span) = Token.written us ++ final := by
    rw [hapart.removeSpans_perm (List.Perm.refl _), hspans, htext]
    exact @Trimmed.stripped _ _ _ ht [] final hplaced hfits (by simp)
  rw [hremoved]
  exact legible_dropEndWhile (ht.legible hglue hplaced hl) hg

/-! ### Reading the expansion -/

theorem alike_of_faces {ts us : List Token} (h : ts.map Token.face = us.map Token.face) : Alike ts us := by
  refine .of_forall₂ ?_
  induction ts generalizing us with
  | nil =>
    cases us with
    | nil => exact .nil
    | cons u us => cases h
  | cons t ts ih =>
    cases us with
    | nil => cases h
    | cons u us =>
      simp only [List.map_cons, List.cons.injEq, Token.face, Prod.mk.injEq] at h
      obtain ⟨⟨hk, ht, hg⟩, hrest⟩ := h
      exact .cons ⟨⟨hk, ht, by rw [Token.newlineBefore, hg]; rfl⟩, by rw [Token.isAttached, hg]; rfl, .inl hg⟩ (ih hrest)

/-- A text is read as the tokens that are legible in it. -/
theorem unmarked_of_legible {text : String} {ts : List Token} {ds : List Decl} (h : LegibleText text.toList ts)
    (hr : Reaches ts ds []) (hn : marksAmong Registry.standard.isRegistered ds = []) :
    (∃ found, Swift.parse text = .ok found) ∧ foundIn .standard text = [] := by
  obtain ⟨hfailure, hfaces⟩ := tokens_of_legible h
  have htop : topLevel ts = .ok ds := by
    have := hr.topLevel (show topLevel [] = .ok [] by rw [topLevel])
    rwa [List.append_nil] at this
  have hsame := topLevel_alike (alike_of_faces hfaces)
  rw [htop] at hsame
  cases hread : topLevel (Tokens.ofText text).tokens with
  | error fault =>
    rw [hread] at hsame
    cases hsame
  | ok found =>
    rw [hread] at hsame
    have hunplaced : unplacedMembers found = unplacedMembers ds := Except.ok.inj hsame
    have hparse : Swift.parse text = .ok found := by
      rw [Swift.parse, hfailure]
      dsimp only
      rw [hread]
      rfl
    have hnone : annotatedAmong Registry.standard.isRegistered none ds = [] := List.map_eq_nil_iff.1 hn
    have hfound := annotatedAmong_unplaced Registry.standard.isRegistered none found
    rw [hunplaced, annotatedAmong_unplaced, hnone, List.map_nil, eq_comm, List.map_eq_nil_iff] at hfound
    exact ⟨⟨found, hparse⟩, (foundIn_of_parse _ hparse).trans hfound⟩

theorem expandFile_of_unmarked {text : String} (settings : Settings) (h : ∃ ds, Swift.parse text = .ok ds)
    (hn : foundIn .standard text = []) : expandFile .standard settings text = ⟨text, [], []⟩ := by
  obtain ⟨ds, hparse⟩ := h
  rw [expandFile_of_ok .standard settings hparse, records_standard, hn]
  rfl

/-- The extension of a record that succeeds brings no registered attribute. -/
theorem unannotated_of_record {text : String} {record : Record} (h : record ∈ (expandFile .standard {} text).records)
    (hsuccess : record.success = true) (hname : isPlain record.typeName = true) (registered : String → Bool) :
    ∃ code, record.extensions = [code] ∧ Unannotated registered code := by
  obtain ⟨a, -, -, code, head, header, members, p, p₁, p₂, p₃, p₄, type, ms, hcode, hthrough, hparse, -, rfl, -⟩ :=
    extension_of_record rfl rfl h hsuccess hname
  exact ⟨code, hcode, (parse_cases hparse).1, _, hthrough, marksAmong_conditional registered _ _⟩

theorem unannotated_of_records {text : String} {ds : List Decl} (hparse : Swift.parse text = .ok ds)
    (hsuccess : (expandFile .standard {} text).success = true)
    (hnames : ∀ record ∈ (expandFile .standard {} text).records, isPlain record.typeName = true)
    (hfound : foundIn .standard text ≠ []) (registered : String → Bool) :
    let codes := ((expandFile .standard {} text).records.filter Record.success).flatMap Record.extensions
    codes ≠ [] ∧ ∀ code ∈ codes, Unannotated registered code := by
  intro codes
  have hrecords := (success_iff_records hparse).1 hsuccess
  have hall : ∀ record ∈ (expandFile .standard {} text).records, ∃ code, record.extensions = [code] ∧
      Unannotated registered code :=
    fun record h => unannotated_of_record h (hrecords record h) (hnames record h) registered
  have hfilter : (expandFile .standard {} text).records.filter Record.success = (expandFile .standard {} text).records :=
    List.filter_eq_self.2 hrecords
  constructor
  · obtain ⟨a, as, ha⟩ := List.exists_cons_of_ne_nil hfound
    obtain ⟨record, hr⟩ : ∃ record, record ∈ (expandFile .standard {} text).records := by
      rw [records_standard, ha]
      exact ⟨_, List.mem_cons_self⟩
    obtain ⟨code, hcode, -⟩ := hall record hr
    have hmem : code ∈ codes := List.mem_flatMap.2 ⟨record, hfilter.symm ▸ hr, hcode ▸ List.mem_cons_self⟩
    exact List.ne_nil_of_mem hmem
  · intro code hcode
    obtain ⟨record, hr, hmem⟩ := List.mem_flatMap.1 hcode
    obtain ⟨code', hcode', hbare⟩ := hall record (hfilter ▸ hr)
    rw [hcode', List.mem_singleton] at hmem
    exact hmem ▸ hbare

/-- The expansion of a file that has something to expand is read again, and nothing in it is. -/
theorem unmarked_expansion {text : String} (hsuccess : (expandFile .standard {} text).success = true)
    (hnames : ∀ record ∈ (expandFile .standard {} text).records, isPlain record.typeName = true)
    (hglue : Unglued ((foundIn .standard text).map AnnotatedType.mark) (Tokens.ofText text).tokens)
    (hfound : foundIn .standard text ≠ []) (hends : isAppendable text = true) :
    (∃ ds, Swift.parse (expandFile .standard {} text).code = .ok ds) ∧
      foundIn .standard (expandFile .standard {} text).code = [] := by
  obtain ⟨ds₀, hparse⟩ := parse_of_success .standard {} hsuccess
  obtain ⟨ds, ts, t, rest, final, hreach, hts, htext, hlegible, hgap, hk, hname, hbreak⟩ := reads_of_appendable hends
  obtain ⟨hcodes, hbare⟩ := unannotated_of_records hparse hsuccess hnames hfound Registry.standard.isRegistered
  obtain ⟨used, us, hused, htrim, hagain⟩ := trimming Registry.standard.isRegistered hreach
  obtain rfl : ts = used := List.append_cancel_right hused
  have hmarks : marksAmong Registry.standard.isRegistered ds = (foundIn .standard text).map AnnotatedType.mark := by
    rw [marks_before_word hreach hk (hts ▸ (parse_cases hparse).2), foundIn, hparse]
    rfl
  rw [hmarks] at htrim
  rw [hts] at hglue
  have hleft := stripped_text hparse hts htext hlegible hgap htrim hglue
  obtain ⟨vs, hwhole, ⟨es, hes, hnone⟩, hfirst⟩ := hleft.extensions hbare
  obtain ⟨u, more, rfl, huk, hutext, hubreak⟩ := hfirst hcodes
  have hnewline {v : Token} (h : '\n' ∈ v.gap.toList) : v.newlineBefore = true := List.contains_iff_mem.2 h
  have hattached {v : Token} (h : '\n' ∈ v.gap.toList) : v.isAttached = false := by
    rw [Token.isAttached, Bool.eq_false_iff]
    intro hx
    rw [String.isEmpty_iff.1 hx] at h
    cases h
  have hfollows : Follows (t :: rest) (u :: more) := by
    refine .same ⟨hk.trans huk.symm, hname.trans hutext.symm, ?_⟩ ?_
    · rw [hnewline hbreak, hnewline hubreak]
    · rw [hattached hbreak, hattached hubreak]
  obtain ⟨ds', hds', hfreed⟩ := hagain (u :: more) hfollows
  have hmarked : marksAmong Registry.standard.isRegistered (ds' ++ es) = [] := by
    rw [marksAmong_append, hfreed.unmarked, hnone]
    rfl
  suffices hread : LegibleText (expandFile .standard {} text).code.toList (us ++ u :: more) from
    unmarked_of_legible hread (hds'.trans hes) hmarked
  rw [code_expandFile hparse, if_neg fun hx => hfound (List.map_eq_nil_iff.1 hx)]
  split
  · exact hwhole.break
  · rwa [List.append_nil]

/-- Expanding a file a second time changes nothing, if the first expansion succeeds: the expanded text is read, nothing
in it is expanded, and it comes out as it is. The names of the types nest their brackets, no registered attribute touches
a word before it, and the text does not end in the middle of something that an extension behind it would be taken for a
part of. -/
theorem expansion_is_idempotent {text : String} (hsuccess : (expandFile .standard {} text).success = true)
    (hnames : ∀ record ∈ (expandFile .standard {} text).records, isPlain record.typeName = true)
    (hglue : Unglued ((foundIn .standard text).map AnnotatedType.mark) (Tokens.ofText text).tokens)
    (hends : foundIn .standard text ≠ [] → isAppendable text = true) :
    let code := (expandFile .standard {} text).code
    (∃ ds, Swift.parse code = .ok ds) ∧ (expandFile .standard {} code).success = true ∧
      (expandFile .standard {} code).records = [] ∧ (expandFile .standard {} code).code = code := by
  intro code
  obtain ⟨hparse, hfound⟩ : (∃ ds, Swift.parse code = .ok ds) ∧ foundIn .standard code = [] := by
    by_cases hnone : foundIn .standard text = []
    · have hread := parse_of_success .standard {} hsuccess
      have hsame : code = text := by
        change (expandFile .standard {} text).code = text
        rw [expandFile_of_unmarked {} hread hnone]
      rw [hsame]
      exact ⟨hread, hnone⟩
    · exact unmarked_expansion hsuccess hnames hglue hnone (hends hnone)
  rw [expandFile_of_unmarked {} hparse hfound]
  exact ⟨hparse, rfl, rfl, rfl⟩

/-- A type with an attribute on a line of its own, and a type inside with two attributes before it. -/
def layeredText : String := "@Testable(all)\nclass A \x7b\n  @objc @Testable private class B \x7b\x7d // inner\n\x7d\n"

/-- What `layeredText` declares. -/
def layeredDeclarations : List Declaration :=
  [⟨"A", "class", [.unsupported ⟨"class", "B", ["private"], "nested types are not supported", some ⟨3, 3⟩⟩],
      [⟨"Testable", some ⟨1, 1⟩⟩], some ⟨1, 1⟩⟩,
    ⟨"A.B", "class", [], [⟨"objc", some ⟨3, 3⟩⟩, ⟨"Testable", some ⟨3, 9⟩⟩], some ⟨3, 3⟩⟩]

theorem layeredText_expanded_twice :
    (expandFile .standard {} layeredText).records.map Record.typeName = ["A", "A.B"] ∧
      let code := (expandFile .standard {} layeredText).code
      (∃ ds, Swift.parse code = .ok ds) ∧ (expandFile .standard {} code).success = true ∧
        (expandFile .standard {} code).records = [] ∧ (expandFile .standard {} code).code = code := by
  have hfound : (foundIn .standard layeredText).map AnnotatedType.declaration = layeredDeclarations := by decide +kernel
  obtain ⟨ds, hparse, -⟩ := exists_ok
    (show (Swift.parse layeredText).toOption.any (fun _ => true) = true by decide +kernel)
  obtain ⟨hsuccess, hnames, -⟩ := records_of_declarations hfound (by
    intro d hd
    refine ⟨?_, ?_⟩
    · revert d
      decide
    · rw [Swift.parse, Tokens.ofText, extensionOf, toList_writeExtension]
      revert d
      decide +kernel)
  refine ⟨hnames, expansion_is_idempotent ((success_iff_records hparse).2 fun record h => ?_) (fun record h => ?_)
    (by decide +kernel) fun _ => by decide +kernel⟩
  · have hall := hsuccess ▸ List.mem_map_of_mem h
    simpa [layeredDeclarations] using hall
  · have hname := hnames ▸ List.mem_map_of_mem (f := Record.typeName) h
    revert hname
    generalize record.typeName = name
    revert name
    decide +kernel

/-- A type with a registered attribute that touches the word before it. -/
def gluedText : String := "@objc@Testable class A \x7b\x7d"

/-- What `gluedText` declares. -/
def gluedDeclaration : Declaration :=
  ⟨"A", "class", [], [⟨"objc", some ⟨1, 1⟩⟩, ⟨"Testable", some ⟨1, 6⟩⟩], some ⟨1, 1⟩⟩

/-- Without the attribute the word before it and the keyword are one word, so that the expansion is not read again. -/
theorem gluedText_expanded : (expandFile .standard {} gluedText).success = true ∧
    (expandFile .standard {} (expandFile .standard {} gluedText).code).success = false := by
  have hfound : (foundIn .standard gluedText).map AnnotatedType.declaration = [gluedDeclaration] := by decide +kernel
  obtain ⟨ds, hparse, -⟩ := exists_ok
    (show (Swift.parse gluedText).toOption.any (fun _ => true) = true by decide +kernel)
  obtain ⟨hsuccess, -, hextensions⟩ := records_of_declarations hfound (by
    intro d hd
    rw [List.mem_singleton.1 hd]
    refine ⟨by decide, ?_⟩
    rw [Swift.parse, Tokens.ofText, extensionOf, toList_writeExtension]
    decide +kernel)
  obtain ⟨record, hrecords, hrecord⟩ := List.map_eq_singleton_iff.1 hsuccess
  rw [hrecords] at hextensions
  refine ⟨(success_iff_records hparse).2 (by simpa [hrecords] using hrecord), Bool.eq_false_iff.2 fun h => ?_⟩
  have hcode : (expandFile .standard {} gluedText).code.toList =
      "@objcclass A \x7b\x7d\n\n".toList ++ (extensionOf {} gluedDeclaration.name gluedDeclaration).toList := by
    have hspans : (foundIn .standard gluedText).map AnnotatedType.span = [⟨5, 14⟩] := by decide +kernel
    have hleft : dropEndWhile (· == '\n') (removeSpans gluedText.toList [⟨5, 14⟩]) = "@objcclass A \x7b\x7d".toList := by
      decide +kernel
    have hlast : gluedText.toList.getLast? ≠ some '\n' := by decide +kernel
    rw [code_expandFile hparse, hspans, if_neg (by decide), hleft, hrecords, List.filter_singleton, hrecord, if_neg hlast]
    simp [List.singleton_inj.1 hextensions]
  have hfault : (Swift.parse (expandFile .standard {} gluedText).code).toOption.isNone = true := by
    rw [Swift.parse, Tokens.ofText, hcode, extensionOf, toList_writeExtension]
    decide +kernel
  obtain ⟨es, hes⟩ := parse_of_success .standard {} h
  rw [hes] at hfault
  cases hfault

end TestHooks.Expansion
