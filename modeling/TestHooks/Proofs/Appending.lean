import TestHooks.Proofs.Locations
import TestHooks.Proofs.Roundtrip
import TestHooks.Proofs.Stripping

/-!
# Extensions behind a text

A text is appendable if an extension that is put behind it is read as a declaration of its own. The tokens before such an
extension are the tokens of the text, and reading them ends where the extension begins (`reads_of_appendable`). Extensions
of records may follow one another (`LegibleText.extensions`).
-/

namespace TestHooks.Swift

open TestHooks.Expansion TestHooks.Text

/-! ### Positions -/

/-- Characters lead to a later line, or to a later column of the line. -/
theorem Place.advance_later (p : Place) (c : Char) (cs : List Char) :
    p.line < (p.advance (c :: cs)).line ∨
      p.line = (p.advance (c :: cs)).line ∧ p.column < (p.advance (c :: cs)).column := by
  have hnext (p : Place) (c : Char) : p.line < (p.next c).line ∨ p.line = (p.next c).line ∧ p.column < (p.next c).column := by
    unfold Place.next
    split
    · exact .inl (Nat.lt_succ_self _)
    · exact .inr ⟨rfl, Nat.lt_succ_self _⟩
  induction cs generalizing p c with
  | nil => exact hnext p c
  | cons d cs ih =>
    have hfirst := hnext p c
    have hothers := ih (p.next c) d
    rw [Place.advance_cons]
    omega

/-- No two characters of a text have the same position. -/
theorem positionAt_injective {text : String} {m n : Nat} (hm : m ≤ text.length) (hn : n ≤ text.length)
    (h : positionAt text m = positionAt text n) : m = n := by
  have hlater {m n : Nat} (hn : n ≤ text.length) (hlt : m < n) : positionAt text m ≠ positionAt text n := by
    obtain ⟨c, cs, hsplit⟩ : ∃ c cs, text.toList.take n = text.toList.take m ++ c :: cs := by
      obtain ⟨more, hmore⟩ := List.take_prefix_take_left (l := text.toList) (Nat.le_of_lt hlt)
      cases more with
      | nil =>
        have hl := congrArg List.length hmore
        rw [List.append_nil, List.length_take, List.length_take, String.length_toList] at hl
        omega
      | cons c cs => exact ⟨c, cs, hmore.symm⟩
    intro he
    rw [positionAt, positionAt, hsplit, Place.advance_append] at he
    have hline := congrArg Position.line he
    have hcolumn := congrArg Position.column he
    have := Place.advance_later (Place.origin.advance (text.toList.take m)) c cs
    omega
  rcases Nat.lt_trichotomy m n with hlt | heq | hgt
  · exact absurd h (hlater hn hlt)
  · exact heq
  · exact absurd h.symm (hlater hm hgt)

/-! ### Tokens by their faces -/

/-- Tokens with these faces, each behind the one before. -/
def Token.placed (place : Place) : List (TokenKind × String × String) → List Token
  | [] => []
  | (kind, text, gap) :: faces =>
    let start := place.advance gap.toList
    ⟨kind, text, gap, start⟩ :: placed (start.advance text.toList) faces

theorem Token.placed_append (place : Place) (faces more : List (TokenKind × String × String)) :
    ∃ after, placed place (faces ++ more) = placed place faces ++ placed after more := by
  induction faces generalizing place with
  | nil => exact ⟨place, rfl⟩
  | cons f faces ih =>
    obtain ⟨kind, text, gap⟩ := f
    obtain ⟨after, h⟩ := ih ((place.advance gap.toList).advance text.toList)
    exact ⟨after, by rw [List.cons_append, placed, placed, h, List.cons_append]⟩

theorem Token.length_placed (place : Place) (faces : List (TokenKind × String × String)) :
    (placed place faces).length = faces.length := by
  induction faces generalizing place with
  | nil => rfl
  | cons f faces ih =>
    obtain ⟨kind, text, gap⟩ := f
    rw [placed, List.length_cons, List.length_cons, ih]

/-- What tokens are read is told by their kinds, texts and gaps. -/
theorem placed_ofElements (place : Place) (gap : List Char) (es : List Element) :
    Token.ofElements (place.advance gap) gap es =
      Token.placed place ((Token.ofElements (place.advance gap) gap es).map Token.face) := by
  induction es generalizing place gap with
  | nil => rfl
  | cons e es ih =>
    rw [Token.ofElements]
    split
    · have hrest := ih ((place.advance gap).advance e.text) []
      rw [Place.advance_nil] at hrest
      rw [List.map_cons, Token.face, Token.placed]
      simp only [String.toList_ofList, List.cons.injEq, true_and]
      exact hrest
    · rw [← Place.advance_append]
      exact ih place (gap ++ e.text)

theorem placed_ofText (text : String) :
    (Tokens.ofText text).tokens = Token.placed .origin ((Tokens.ofText text).tokens.map Token.face) :=
  placed_ofElements .origin [] _

/-- The tokens of a text that are legible before something else are all tokens of a text that ends with them. -/
theorem tokens_of_prefix {text whole : String} {ts more : List Token} (hw : (Tokens.ofText whole).tokens = ts ++ more)
    (h : LegibleText text.toList ts) : (Tokens.ofText text).tokens = ts := by
  have hwhole := placed_ofText whole
  rw [hw, List.map_append] at hwhole
  obtain ⟨after, hsplit⟩ := Token.placed_append .origin (ts.map Token.face) (more.map Token.face)
  rw [hsplit] at hwhole
  have hts := (List.append_inj hwhole (by rw [Token.length_placed, List.length_map])).1
  rw [placed_ofText text, (tokens_of_legible h).2, ← hts]

/-! ### Where a declaration begins -/

theorem position_of_declaration {strict : Bool} {t : Token} {ts left : List Token} {d : Decl}
    (h : declarationRun strict t ts = .ok (some d, left)) : d.position = t.position := by
  rcases declarationRun_cases h with ⟨-, -, cs, hd, -⟩ | ⟨-, -, hd, -⟩ | ⟨head, k, rest, -, hh, -, hcases⟩
  · cases hd
    rfl
  · cases hd
    rfl
  · obtain ⟨-, -, -, hp⟩ := headFrom_cases hh
    rcases hcases with ⟨keyword, header, inside, ms, -, -, -, hd⟩ | ⟨-, hf⟩
    · cases hd
      exact hp
    · rcases flatDeclaration_cases hf with ⟨_, _, -, -, hd⟩ | ⟨_, -, -, hd⟩ | ⟨_, _, -, -, hd⟩ | ⟨-, -, -, -, hd, -⟩
      · cases hd
        exact hp
      · cases hd
        exact hp
      · cases hd
        exact hp
      · cases hd

/-- Reading a file comes to each of its declarations. -/
theorem topLevel_split {ts : List Token} {ds es : List Decl} {e : Decl} (h : topLevel ts = .ok (ds ++ e :: es)) :
    ∃ t rest after, Reaches ts ds (t :: rest) ∧ declarationRun false t rest = .ok (some e, after) := by
  induction hn : ts.length using Nat.strongRecOn generalizing ts ds with
  | ind n ih =>
    rcases topLevel_cases h with ⟨-, hd⟩ | ⟨t, rest, rfl, ⟨hk, hr⟩ | ⟨hs, hb, first, after, others, hd, ho, hfound⟩⟩
    · simp at hd
    · obtain ⟨u, more, left, hreach, hdecl⟩ := ih rest.length (by rw [← hn]; simp) hr rfl
      exact ⟨u, more, left, .semicolon hk hreach, hdecl⟩
    · have hlt : after.length < n := by
        have := (declarationRun_suffix hd).length_le
        rw [← hn, List.length_cons]
        omega
      cases first with
      | none =>
        rw [Option.toList_none, List.nil_append] at hfound
        subst hfound
        obtain ⟨u, more, left, hreach, hdecl⟩ := ih after.length hlt ho rfl
        exact ⟨u, more, left, .declaration hs hb hd hreach, hdecl⟩
      | some d =>
        cases ds with
        | nil =>
          obtain ⟨rfl, -⟩ := List.cons.inj hfound
          exact ⟨t, rest, after, .here, hd⟩
        | cons d' ds =>
          obtain ⟨rfl, hothers⟩ := List.cons.inj hfound
          rw [← show ds ++ e :: es = others from hothers] at ho
          obtain ⟨u, more, left, hreach, hdecl⟩ := ih after.length hlt ho rfl
          exact ⟨u, more, left, .declaration hs hb hd hreach, hdecl⟩

theorem Reaches.suffix {ts left : List Token} {ds : List Decl} (h : Reaches ts ds left) : left <:+ ts := by
  induction h with
  | here => exact List.suffix_refl _
  | semicolon _ _ ih => exact ih.trans (List.suffix_cons _ _)
  | declaration _ _ hd _ ih => exact ih.trans ((declarationRun_suffix hd).trans (List.suffix_cons _ _))

theorem Reaches.trans {ts mid left : List Token} {ds es : List Decl} (h : Reaches ts ds mid) (h' : Reaches mid es left) :
    Reaches ts (ds ++ es) left := by
  induction h with
  | here => exact h'
  | semicolon hk _ ih => exact .semicolon hk (ih h')
  | declaration hs hb hd _ ih =>
    rw [List.append_assoc]
    exact .declaration hs hb hd (ih h')

/-! ### A text before an extension -/

/-- An empty extension behind an empty line. -/
def emptyExtension : String := "\n\nextension A \x7b\x7d"

/-- True if an extension behind the text is read as a declaration of its own. -/
def isAppendable (text : String) : Bool :=
  match parse (text ++ emptyExtension) with
  | .ok ds => ds.getLast?.any (·.position == positionAt (text ++ emptyExtension) (text.length + 2))
  | .error _ => false

theorem isAppendable_cases {text : String} (h : isAppendable text = true) :
    ∃ ds e, parse (text ++ emptyExtension) = .ok (ds ++ [e]) ∧
      e.position = positionAt (text ++ emptyExtension) (text.length + 2) := by
  unfold isAppendable at h
  split at h
  · next ds hparse =>
    simp only [Option.any_eq_true, beq_iff_eq] at h
    obtain ⟨e, he, hposition⟩ := h
    obtain ⟨init, rfl⟩ := List.getLast?_eq_some_iff.1 he
    exact ⟨init, e, hparse, hposition⟩
  · cases h

/-- Before an extension the same attributes are found as at the end of the file. -/
theorem marks_before_word {ts rest : List Token} {t : Token} {ds found : List Decl}
    (h : Reaches (ts ++ t :: rest) ds (t :: rest)) (hk : t.kind = .identifier) (hfound : topLevel ts = .ok found)
    (p : String → Bool) : marksAmong p ds = marksAmong p found := by
  obtain ⟨used, us, hused, htrim, hagain⟩ := trimming (fun _ => false) h
  obtain rfl : ts = used := List.append_cancel_right hused
  rw [marksAmong, annotatedAmong_none] at htrim
  obtain rfl := htrim.eq
  obtain ⟨ds', hreach, hfreed⟩ := hagain [] (.ending hk)
  have htop := hreach.topLevel (show topLevel [] = .ok [] by rw [topLevel])
  rw [List.append_nil, List.append_nil, hfound] at htop
  rw [← hfreed.marks p, Except.ok.inj htop]

/-- What stands at the head of a text is one element. -/
theorem Element.Fits.unique {e f : Element} {rest rest' : List Char} (he : e.Fits rest) (hf : f.Fits rest')
    (h : e.text ++ rest = f.text ++ rest') : e = f := by
  obtain ⟨c, cs, hc, hm⟩ := he
  obtain ⟨d, ds, hd, hm'⟩ := hf
  rw [hc, hd, List.cons_append, List.cons_append, List.cons.injEq] at h
  obtain ⟨rfl, htail⟩ := h
  rw [htail] at hm
  obtain ⟨hshape, hlength⟩ := Prod.mk.inj (Except.ok.inj (hm.symm.trans hm'))
  obtain ⟨rfl, -⟩ := List.append_inj htail hlength
  cases e
  cases f
  simp only [Element.mk.injEq]
  exact ⟨hshape, hc.trans hd.symm⟩

/-- Legible tokens do not end in a blank. -/
theorem last_of_legible {ts : List Token} {rest : List Char} (h : Legible rest ts) :
    ∀ c ∈ (Token.written ts).getLast?, isBlank c = false := by
  intro c hc
  obtain rfl | ⟨init, t, rfl⟩ : ts = [] ∨ ∃ init t, ts = init ++ [t] := by
    by_cases hn : ts = []
    · exact .inl hn
    · exact .inr ⟨_, _, (List.dropLast_concat_getLast hn).symm⟩
  · cases hc
  · obtain ⟨-, -, hfits, -⟩ := legible_append.1 h
    have hw : Token.written (init ++ [t]) = Token.written init ++ t.gap.toList ++ t.text.toList := by
      simp [Token.written]
    rw [hw] at hc
    exact Trimmed.last_of_fits hfits _ c hc

/-- Tokens do not end in a blank, so that blanks at the end belong to the gap behind them. -/
theorem gap_of_written {ts : List Token} {rest text gap blanks : List Char} (hl : Legible rest ts)
    (hb : ∀ c ∈ blanks, isBlank c = true) (h : Token.written ts ++ gap = text ++ blanks) :
    ∃ final, text = Token.written ts ++ final ∧ gap = final ++ blanks := by
  rcases List.append_eq_append_iff.1 h with ⟨q, hq, hg⟩ | ⟨q, hq, hg⟩
  · exact ⟨q, hq, hg⟩
  · cases q with
    | nil => exact ⟨[], by rw [hq]; simp, by simpa using hg.symm⟩
    | cons c q =>
      have hlast := List.getLast?_eq_some_getLast (List.cons_ne_nil c q)
      have hblank := hb _ (hg ▸ List.mem_append_left _ (List.mem_of_getLast? hlast))
      have hword := last_of_legible hl ((c :: q).getLast (List.cons_ne_nil c q)) (by
        rw [hq, List.getLast?_append_of_ne_nil _ (List.cons_ne_nil c q), hlast]
        rfl)
      rw [hblank] at hword
      cases hword

/-- The token that a declaration behind the text begins with stands behind the empty line. -/
theorem offset_of_appended {text : String} {t : Token} {position : Position}
    (hmem : t ∈ (Tokens.ofText (text ++ emptyExtension)).tokens) (hp : t.position = position)
    (h : position = positionAt (text ++ emptyExtension) (text.length + 2)) : t.start.offset = text.length + 2 := by
  have hlength : (text ++ emptyExtension).length = text.length + 16 := by
    rw [String.length_append]
    rfl
  obtain ⟨c, hc, -⟩ := (Token.standing_ofText (text ++ emptyExtension)).getElem_start hmem
  have hlt := (List.getElem?_eq_some_iff.1 hc).1
  rw [String.length_toList] at hlt
  refine positionAt_injective (Nat.le_of_lt hlt) (by omega) ?_
  rw [← position_of_mem hmem, hp, h]

/-- The token behind the empty line is the word of the extension, and the tokens before it are written as the text, whose
end belongs to the gap before the word. -/
theorem appended_word {text : String} {ts rest : List Token} {t : Token}
    (hfailure : (Tokens.ofText (text ++ emptyExtension)).failure = none)
    (hts : ts ++ t :: rest = (Tokens.ofText (text ++ emptyExtension)).tokens)
    (hoffset : t.start.offset = text.length + 2) :
    t.element = .word "extension".toList ∧ ∃ final, text.toList = Token.written ts ++ final ∧ Legible final ts ∧
      Gap [] final ∧ t.gap.toList = final ++ ['\n', '\n'] := by
  obtain ⟨final, htext, hlegible, -⟩ := legibleText_ofText hfailure
  rw [← hts] at htext hlegible
  obtain ⟨hlts, hgap, hfits, -⟩ := legible_append.1 hlegible
  have hwritten : (Token.written ts ++ t.gap.toList).length = (text.toList ++ ['\n', '\n']).length := by
    rw [List.length_append, ← (Token.standing_ofText (text ++ emptyExtension)).offset hts.symm, hoffset,
      List.length_append, String.length_toList]
    rfl
  have hparts : Token.written ts ++ t.gap.toList ++ (t.text.toList ++ (Token.written rest ++ final)) =
      text.toList ++ ['\n', '\n'] ++ "extension A \x7b\x7d".toList := by
    have hprobe : (text ++ emptyExtension).toList = text.toList ++ ['\n', '\n'] ++ "extension A \x7b\x7d".toList := by
      rw [String.toList_append, List.append_assoc]
      rfl
    rw [← hprobe, htext, Token.written_append, Token.written_cons]
    simp only [List.append_assoc]
  obtain ⟨hfront, hback⟩ := List.append_inj hparts hwritten
  have hword : (Element.word "extension".toList).Fits (' ' :: "A \x7b\x7d".toList) :=
    word_fits (.plain (by decide) (by decide)) rfl
  obtain ⟨fin, htsText, hgapText⟩ := gap_of_written hlts (by decide) hfront
  refine ⟨hfits.unique hword hback, fin, htsText, ?_, ?_, hgapText⟩
  · have hr := ((show Separated [] from rfl).replaces
      ('\n' :: '\n' :: (t.text.toList ++ (Token.written rest ++ final)))).append fin
    rw [List.append_nil] at hr
    refine Legible.replace hr ?_
    simpa [Token.written_cons, hgapText] using hlts
  · rw [hgapText] at hgap
    exact hgap.without_blanks (by decide) (.inl rfl)

/-- The tokens of the text come before the extension, and the text is what is written of them before its line breaks. -/
theorem reads_of_appendable {text : String} (h : isAppendable text = true) :
    ∃ ds ts t rest final, Reaches (ts ++ t :: rest) ds (t :: rest) ∧
      (Tokens.ofText text).tokens = ts ∧ text.toList = Token.written ts ++ final ∧ Legible final ts ∧ Gap [] final ∧
      t.kind = .identifier ∧ t.text = "extension" ∧ '\n' ∈ t.gap.toList := by
  obtain ⟨ds, e, hwhole, hposition⟩ := isAppendable_cases h
  obtain ⟨hfailure, htop⟩ := parse_cases hwhole
  obtain ⟨t, rest, after, hreach, hdecl⟩ := topLevel_split htop
  obtain ⟨ts, hts⟩ := hreach.suffix
  have hmem : t ∈ (Tokens.ofText (text ++ emptyExtension)).tokens := hts ▸ List.mem_append_right _ List.mem_cons_self
  have hoffset := offset_of_appended hmem (position_of_declaration hdecl).symm hposition
  obtain ⟨helement, final, htext, hlegible, hgap, hbreaks⟩ := appended_word hfailure hts hoffset
  have hkind : t.kind = .identifier := by
    have := congrArg Element.shape helement
    simpa [Token.element, Element.word] using this
  have hname : t.text = "extension" := String.toList_inj.1 (congrArg Element.text helement)
  rw [← hts] at hreach
  exact ⟨ds, ts, t, rest, final, hreach, tokens_of_prefix hts.symm ⟨final, htext, hlegible, hgap⟩, htext, hlegible, hgap,
    hkind, hname, by simp [hbreaks]⟩

/-! ### Extensions one behind another -/

open TestHooks.Proxy

/-- The extension is read through its last token, and no type in it has a registered attribute. -/
def Unannotated (registered : String → Bool) (code : String) : Prop :=
  (Tokens.ofText code).failure = none ∧ ∃ ms, ReadThrough code ms ∧ marksAmong registered ms = []

/-- Extensions behind a legible text are read one by one, each behind an empty line. -/
theorem LegibleText.extensions {registered : String → Bool} {cs : List Char} {ts : List Token} (h : LegibleText cs ts)
    {codes : List String} (hcodes : ∀ code ∈ codes, Unannotated registered code) :
    ∃ us, LegibleText (cs ++ codes.flatMap fun code => '\n' :: '\n' :: code.toList) (ts ++ us) ∧
      (∃ ds, Reaches us ds [] ∧ marksAmong registered ds = []) ∧
      (codes ≠ [] → ∃ u more, us = u :: more ∧ u.kind = .identifier ∧ u.text = "extension" ∧ '\n' ∈ u.gap.toList) := by
  induction codes generalizing cs ts with
  | nil => exact ⟨[], by simpa using h, ⟨[], .here, rfl⟩, fun hn => absurd rfl hn⟩
  | cons code codes ih =>
    obtain ⟨⟨hfailure, ms, ⟨u, vs, header, inside, htokens, hk, ht, hh, hm⟩, hnone⟩, hothers⟩ := List.forall_mem_cons.1 hcodes
    have hcode := legibleText_ofText hfailure
    rw [htokens] at hcode
    obtain ⟨gap, hbreak, hfirst⟩ := h.append hcode
    obtain ⟨us, hlegible, ⟨ds, hreach, hmarks⟩, -⟩ := ih hfirst hothers
    obtain ⟨es, hextension, hmarks'⟩ :=
      extension_reaches registered (t := { u with gap := String.ofList gap }) hk ht hh hm hnone us
    refine ⟨{ u with gap := String.ofList gap } :: (vs ++ us), ?_, ⟨es ++ ds, hextension.trans hreach, ?_⟩, fun _ => ?_⟩
    · simpa using hlegible
    · rw [marksAmong_append, hmarks', hmarks]
      rfl
    · exact ⟨_, _, rfl, hk, ht, by rwa [String.toList_ofList]⟩

end TestHooks.Swift
