import TestHooks.Proofs.Composing
import TestHooks.Proofs.Nodes
import TestHooks.Proofs.Spelled

/-!
# Types that are recorded

The text of a type is taken from the tokens behind its mark, with each run of blanks as one space. So it is read as these
tokens, up to the first that a comment on a line stands before, and with the blanks inside them squeezed
(`recorded_types`).
-/

namespace TestHooks.Swift

open TestHooks.Text TestHooks.Reader Reader

/-! ### Shorter texts -/

/-- An element fits before the beginning of the text that it fits before. -/
theorem Element.Fits.shorten {e : Element} {more after : List Char} (h : e.Fits (more ++ after)) : e.Fits more := by
  by_cases hs : e.shape = .lineComment
  · refine h.lineComment_before hs fun ha => ?_
    cases more with
    | nil => rfl
    | cons d more => exact ha
  · refine h.respaced hs (respaced_refl false _) ?_ ?_ ?_
    · exact fun p _ hp => hp.trans (List.prefix_append _ _)
    · exact fun cs _ hp => hp.trans (List.prefix_append _ _)
    · intro _ hb
      cases more with
      | nil => rfl
      | cons d more => exact hb

theorem Fitting.shorten {es : List Element} {more after : List Char} (h : Fitting es (more ++ after)) :
    Fitting es more := by
  induction es with
  | nil => trivial
  | cons e es ih =>
    refine ⟨?_, ih h.2⟩
    have he := h.1
    rw [← List.append_assoc] at he
    exact he.shorten

/-! ### Comments on a line -/

/-- True if a comment on a line stands between the token and the one before it. -/
def Token.isBehindLineComment (t : Token) : Bool :=
  (Cut.ofText t.gap.toList).elements.any fun e => !e.staysOnLine

/-- The tokens up to the first that a comment on a line stands before. What stands before the first does not count. -/
def sameLine : List Token → List Token
  | [] => []
  | t :: ts => t :: ts.takeWhile fun u => !u.isBehindLineComment

theorem bareTokens_sublist {es fs : List Element} (h : es.Sublist fs) (hf : bareTokens fs = []) : bareTokens es = [] := by
  have := h.filterMap Element.token?
  rw [← bareTokens, ← bareTokens, hf] at this
  exact List.sublist_nil.1 this

/-- The tokens of the elements before the first comment on a line. -/
theorem bareTokens_staying {place : Place} {es : List Element} {after : List Char} (hf : Fitting es after) :
    bareTokens (es.takeWhile Element.staysOnLine) =
      ((Token.ofElements place [] es).takeWhile fun t => !t.isBehindLineComment).map Token.bare := by
  cases hts : Token.ofElements place [] es with
  | nil =>
    have hnone := map_bare_ofElements place [] es
    rw [hts] at hnone
    exact bareTokens_sublist (List.takeWhile_sublist _) hnone.symm
  | cons t ts =>
    obtain ⟨lead, e, es', place', hes, hlead, hk, ht, hgap, hrest⟩ := ofElements_cons hts
    have hlength : es'.length < es.length := by
      rw [hes, List.length_append, List.length_cons]
      omega
    rw [hes] at hf
    obtain ⟨hleadfits, -, hf'⟩ := fitting_append.1 hf
    have hcut : (Cut.ofText t.gap.toList).elements = lead := by
      rw [hgap, List.nil_append, cut_flatten (@Fitting.shorten lead [] _ hleadfits)]
    have hstays : e.staysOnLine = true := by simp [Element.staysOnLine, hk]
    by_cases hline : t.isBehindLineComment = true
    · obtain ⟨f, hf, hfline⟩ := List.any_eq_true.1 hline
      rw [hcut] at hf
      have hstop : (lead.takeWhile Element.staysOnLine).length ≠ lead.length := by
        intro hx
        rw [List.takeWhile_eq_self_iff.1 ((List.takeWhile_prefix _).eq_of_length hx) f hf] at hfline
        cases hfline
      rw [hes, List.takeWhile_append, if_neg hstop, List.takeWhile_cons_of_neg (by simp [hline]), List.map_nil]
      exact bareTokens_sublist (List.takeWhile_sublist _) hlead
    · rw [Bool.not_eq_true] at hline
      have hall : ∀ f ∈ lead, f.staysOnLine = true := by
        intro f hf
        rw [Token.isBehindLineComment, hcut, List.any_eq_false] at hline
        simpa using hline f hf
      have hbare : bareTokens (e :: es'.takeWhile Element.staysOnLine) =
          t.bare :: bareTokens (es'.takeWhile Element.staysOnLine) := by
        rw [bareTokens, List.filterMap_cons]
        simp only [Element.token?, hk, ht, String.ofList_toList]
        rfl
      rw [hes, List.takeWhile_append_of_pos hall, List.takeWhile_cons_of_pos hstays,
        List.takeWhile_cons_of_pos (by simp [hline]), List.map_cons, bareTokens_append, hlead, List.nil_append, hbare,
        hrest, bareTokens_staying hf']
termination_by es.length

/-! ### Phrases -/

/-- What the text of a phrase is cut into: a lexeme of the first token's kind and what follows it on its line. -/
theorem phrase_tokens {ts taken left : List Token} {t : Token} (hs : Scanned ts) (h : t :: taken ++ left = ts) :
    ∃ e es, Fitting (e :: es) [] ∧ (e :: es).flatMap Element.text = (phrase (t :: taken)).toList ∧
      e.shape = .lexeme t.kind ∧ bareTokens (e :: es) = (sameLine (t :: taken)).map fun u => u.bare.squeezed := by
  obtain ⟨e, es, after, hseg, hk, ht, -, htext, hlast, place, htaken⟩ := phrase_elements hs h
  have hblank : ∀ f, (e :: es).getLast? = some f → f.shape ≠ .blank := by
    intro f hf hx
    obtain ⟨kind, hk⟩ := hlast f hf
    rw [hk] at hx
    cases hx
  obtain ⟨hflat, hfits, hline, hcomment⟩ := spelling_of_fitting hseg hblank
  have hsettled : settled (e :: es) = e.collapsed :: settled es := by
    simp [settled, Element.staysOnLine, hk]
  have hline' : '\n' ∉ swallowed (e :: es) := fun hm => hline (hflat ▸ List.mem_append_right _ hm)
  refine ⟨e.collapsed, settled es ++ commented (swallowed (e :: es)), ?_, ?_, ?_, ?_⟩
  · have hfront := hfits [] rfl
    rw [hsettled, List.append_nil] at hfront
    rw [← List.cons_append, fitting_append, commented_flatten, List.append_nil]
    exact ⟨hfront, comment_fits hcomment hline' rfl⟩
  · rw [← List.cons_append, List.flatMap_append, commented_flatten, ← hsettled, hflat, htext, String.toList_ofList]
  · simp [Element.collapsed, hk]
  · have hnone : bareTokens (commented (swallowed (e :: es))) = [] := by
      unfold commented
      split <;> rfl
    have hfirst : bareTokens (e :: es.takeWhile Element.staysOnLine) =
        t.bare :: bareTokens (es.takeWhile Element.staysOnLine) := by
      rw [bareTokens, List.filterMap_cons]
      simp only [Element.token?, hk, ht, String.ofList_toList]
      rfl
    rw [← List.cons_append, ← hsettled, bareTokens_append, hnone, List.append_nil, settled, bareTokens_collapsed,
      List.takeWhile_cons_of_pos (by simp [Element.staysOnLine, hk]), hfirst, @bareTokens_staying place _ _ hseg.2,
      ← htaken, sameLine, ← List.map_cons, List.map_map]
    rfl

/-- The text of a phrase is read as its tokens up to the first that a comment on a line stands before, with the blanks in
them squeezed. -/
theorem tokens_of_phrase {ts taken left : List Token} {t : Token} (hs : Scanned ts) (h : t :: taken ++ left = ts) :
    (Tokens.ofText (phrase (t :: taken))).failure = none ∧
      (Tokens.ofText (phrase (t :: taken))).tokens.map Token.bare =
        (sameLine (t :: taken)).map fun u => u.bare.squeezed := by
  obtain ⟨e, es, hfits, hflat, -, hbare⟩ := phrase_tokens hs h
  rw [ofText_of_fitting hfits hflat]
  exact ⟨rfl, (map_bare_ofElements .origin [] _).trans hbare⟩

/-- No token but the first stands behind a comment on a line, and no token has blanks that would be squeezed. -/
def IsVerbatim (ts : List Token) : Prop :=
  (∀ t ∈ ts.tail, t.isBehindLineComment = false) ∧ ∀ t ∈ ts, collapse t.text.toList = t.text.toList

theorem squeezed_eq_iff {t : Token} : t.squeezed = t ↔ collapse t.text.toList = t.text.toList := by
  constructor
  · intro h
    have ht := congrArg (fun u => u.text.toList) h
    simpa [Token.squeezed] using ht
  · intro h
    rw [Token.squeezed, h, String.ofList_toList]

theorem verbatim_iff {ts : List Token} :
    (sameLine ts).map (fun u => u.bare.squeezed) = ts.map Token.bare ↔ IsVerbatim ts := by
  cases ts with
  | nil => simp [sameLine, IsVerbatim]
  | cons t ts =>
    constructor
    · intro h
      have hlength := congrArg List.length h
      simp only [sameLine, List.length_map, List.length_cons, Nat.add_right_cancel_iff] at hlength
      have hself := (List.takeWhile_prefix (fun u : Token => !u.isBehindLineComment)).eq_of_length hlength
      rw [sameLine, hself, List.map_inj_left] at h
      refine ⟨fun u hu => ?_, fun u hu => ?_⟩
      · simpa using List.takeWhile_eq_self_iff.1 hself u hu
      · exact (squeezed_eq_iff (t := u.bare)).1 (h u hu)
    · rintro ⟨hlines, hblanks⟩
      have hself : (ts.takeWhile fun u => !u.isBehindLineComment) = ts :=
        List.takeWhile_eq_self_iff.2 fun u hu => by simp [hlines u hu]
      rw [sameLine, hself, List.map_inj_left]
      exact fun u hu => (squeezed_eq_iff (t := u.bare)).2 (hblanks u hu)

/-! ### Recorded types -/

/-- What a type is for in a declaration. -/
inductive TypeRole
  | annotated | parameter | result | inherited | extended
  deriving DecidableEq, Repr

/-- The words that end a type in the role. -/
def TypeRole.stops : TypeRole → List String
  | annotated | parameter => []
  | result | inherited | extended => ["where"]

/-- True for the tokens that a type in the role stands behind. -/
def TypeRole.opens : TypeRole → Token → Bool
  | annotated, t | parameter, t => t.kind == .colon
  | result, t => t.kind == .arrow
  | inherited, t => t.kind == .colon || t.kind == .comma
  | extended, t => t.isIdentifier "extension"

/-- The types that are recorded in a declaration, but not those in its members. -/
def Decl.types : Decl → List (TypeRole × String)
  | .group _ header _ =>
    (if header.keyword = .extensionType then [(.extended, header.name)] else []) ++
      header.inherited.map fun type => (.inherited, type)
  | .variableList _ _ bindings => bindings.flatMap fun b => b.type.toList.map fun type => (.annotated, type)
  | .function _ signature =>
    signature.parameters.map (fun p => (.parameter, p.type)) ++
      signature.returnType.toList.map fun type => (.result, type)
  | .conditional _ _ | .other _ _ _ => []

/-- The types that are recorded in a tree, conditional blocks included. -/
def typesAmong (ds : List Decl) : List (TypeRole × String) :=
  (nodesAmong ds).flatMap Decl.types

/-- The tokens `taken` stand in `ts` behind the mark of the role, and are what is read as a type there. -/
structure TakenFrom (ts : List Token) (role : TypeRole) (taken : List Token) : Prop where
  stands : ∃ mark left, mark :: (taken ++ left) <:+ ts ∧ role.opens mark = true ∧
    splitType role.stops 0 none (taken ++ left) = (taken, left)
  ne_nil : taken ≠ []

section

variable {ts us rest : List Token} (role : TypeRole) {type : String}

theorem typeText_taken {mark : Token} (hs : mark :: us <:+ ts) (hm : role.opens mark = true)
    (h : (typeText role.stops).run us = .ok (type, rest)) : ∃ taken, TakenFrom ts role taken ∧ type = phrase taken := by
  obtain ⟨t, taken, hsplit, rfl⟩ := phraseBy_eq_ok.1 h
  have happend := splitType_append role.stops 0 none us
  rw [hsplit] at happend
  exact ⟨t :: taken, ⟨⟨mark, rest, by rwa [happend], hm, by rwa [happend]⟩, List.cons_ne_nil _ _⟩, rfl⟩

theorem optional_type_taken {test : Token → Bool} (htest : ∀ t, test t = true → role.opens t = true) (hs : us <:+ ts)
    (h : (optionally test fun _ => typeText role.stops).run us = .ok (some type, rest)) :
    ∃ taken, TakenFrom ts role taken ∧ type = phrase taken := by
  rcases optionally_cases h with ⟨-, hx, -⟩ | ⟨mark, more, y, rfl, hm, hp, hx⟩
  · cases hx
  · cases hx
    exact typeText_taken role hs (htest mark hm) hp

theorem binding_taken {b : Binding} (hs : us <:+ ts) (h : binding.run us = .ok (b, rest)) (hb : b.type = some type) :
    ∃ taken, TakenFrom ts .annotated taken ∧ type = phrase taken := by
  obtain ⟨named, typed, valued, hn, ht, -, -⟩ := binding_cases h
  rw [hb] at ht
  exact optional_type_taken .annotated (fun _ hm => hm) ((Reader.suffix _ hn).trans hs) ht

theorem parameter_taken {p : Parameter} (hs : us <:+ ts) (h : parameter.run us = .ok (p, rest)) :
    ∃ taken, TakenFrom ts .parameter taken ∧ p.type = phrase taken := by
  obtain ⟨found, first, named, second, colon, after, typed, ha, -, -, hsec, -, hk, ht, -⟩ := parameter_cases h
  have hcolon : colon :: after <:+ ts :=
    ((Reader.suffix _ hsec).trans ((List.suffix_cons first named).trans (Reader.suffix _ ha))).trans hs
  exact typeText_taken .parameter hcolon (by rw [TypeRole.opens, hk]; rfl) ht

theorem parameterUnlessClosed_taken {p : Parameter} (hs : us <:+ ts)
    (h : parameterUnlessClosed.run us = .ok (some p, rest)) :
    ∃ taken, TakenFrom ts .parameter taken ∧ p.type = phrase taken := by
  rcases parameterUnlessClosed_cases h with ⟨hx, -⟩ | ⟨q, hx, hq⟩
  · cases hx
  · cases hx
    exact parameter_taken hs hq

theorem parameterClause_taken {ps : List Parameter} (hs : us <:+ ts) (h : parameterClause.run us = .ok (ps, rest)) :
    ∀ p ∈ ps, ∃ taken, TakenFrom ts .parameter taken ∧ p.type = phrase taken := by
  obtain ⟨opener, inside, first, after, others, closer, rfl, hf, hw, -, rfl⟩ := parameterClause_cases h
  have hinside := (List.suffix_cons opener inside).trans hs
  intro p hp
  obtain ⟨found, hm, rfl⟩ := List.mem_filterMap.1 hp
  rcases List.mem_cons.1 hm with rfl | hm
  · exact parameterUnlessClosed_taken hinside hf
  · obtain ⟨t, more, left, hmore, -, hq, -⟩ := whileNext_forall hw (some p) hm
    have hafter := (Reader.suffix _ hf).trans hinside
    exact parameterUnlessClosed_taken ((List.suffix_cons _ _).trans (hmore.trans hafter)) hq

theorem function_taken {s : Signature} (hs : us <:+ ts) (h : function.run us = .ok (s, rest)) :
    (∀ p ∈ s.parameters, ∃ taken, TakenFrom ts .parameter taken ∧ p.type = phrase taken) ∧
      ∀ type, s.returnType = some type → ∃ taken, TakenFrom ts .result taken ∧ type = phrase taken := by
  obtain ⟨named, listing, listed, returning, returned, required, found, body, hn, hg, hp, he, ht, -⟩ :=
    signature_cases h
  have hlisting := ((Reader.suffix _ hg).trans (Reader.suffix _ hn)).trans hs
  have hreturning := ((Reader.suffix _ he).trans (Reader.suffix _ hp)).trans hlisting
  refine ⟨parameterClause_taken hlisting hp, fun type htype => ?_⟩
  rw [htype] at ht
  exact optional_type_taken .result (fun _ hm => hm) hreturning ht

theorem inheritance_taken {types : List String} (hs : us <:+ ts) (h : inheritance.run us = .ok (types, rest)) :
    ∀ type ∈ types, ∃ taken, TakenFrom ts .inherited taken ∧ type = phrase taken := by
  rcases inheritance_cases h with ⟨rfl, -⟩ | ⟨colon, more, rfl, hc, hlist⟩
  · exact List.forall_mem_nil _
  obtain ⟨first, after, others, hfirst, hothers, rfl⟩ := byCommas_cases hlist
  intro type hm
  rcases List.mem_cons.1 hm with rfl | hm
  · exact typeText_taken .inherited hs (by rw [TypeRole.opens, hc]; rfl) hfirst
  · obtain ⟨comma, next, left, hnext, hc', hp, -⟩ := whileNext_forall hothers type hm
    have hcomma : comma :: next <:+ ts :=
      hnext.trans ((Reader.suffix _ hfirst).trans ((List.suffix_cons _ _).trans hs))
    exact typeText_taken .inherited hcomma (by rw [TypeRole.opens, hc', Bool.or_true]) hp

end

theorem extension_word {k : Token} (h : Introducer.ofToken? k = some (.type .extensionType)) :
    k.isIdentifier "extension" = true := by
  unfold Introducer.ofToken? at h
  split at h
  · cases h
  · next hk =>
    split at h
    · next keyword _ hfind =>
      cases h
      have htext : TypeKeyword.extensionType.text = k.text := by simpa using List.find?_some hfind
      have hkind : k.kind = .identifier := by simpa using hk
      rw [Token.isIdentifier, hkind, ← htext]
      decide
    · cases h
    · split at h
      · cases h
      · split at h <;> cases h

theorem typeHeader_taken {ts us inside : List Token} {k : Token} {keyword : TypeKeyword} {header : TypeHeader}
    (hs : k :: us <:+ ts) (hi : Introducer.ofToken? k = some (.type keyword))
    (h : (typeHeader keyword).run us = .ok (header, inside)) :
    (header.keyword = .extensionType → ∃ taken, TakenFrom ts .extended taken ∧ header.name = phrase taken) ∧
      ∀ type ∈ header.inherited, ∃ taken, TakenFrom ts .inherited taken ∧ type = phrase taken := by
  obtain ⟨named, inherited, required, brace, hn, hinherited, -, -, hk⟩ := typeHeader_cases h
  have hnamed : named <:+ ts := (Reader.suffix _ hn).trans ((List.suffix_cons _ _).trans hs)
  refine ⟨fun hx => ?_, inheritance_taken hnamed hinherited⟩
  rcases typeName_cases hn with ⟨rfl, -, t, taken, hsplit, hname⟩ | ⟨hne, -⟩
  · exact typeText_taken .extended hs (extension_word hi) (phraseBy_eq_ok.2 ⟨t, taken, hsplit, hname⟩)
  · exact absurd (hk.symm.trans hx) hne

/-- Every recorded type is the text of tokens that stand where types in its role stand. -/
theorem types_taken {ts : List Token} {d : Decl} (h : ReadAmong ts d) :
    ∀ p ∈ d.types, ∃ taken, TakenFrom ts p.1 taken ∧ p.2 = phrase taken := by
  rintro ⟨role, type⟩ hp
  cases h with
  | conditional | directive | other => cases hp
  | group hs hh hi ht =>
    have hk := ((headFrom _).suffix hh).trans hs
    obtain ⟨hname, hinherited⟩ := typeHeader_taken hk hi ht
    rw [Decl.types, List.mem_append] at hp
    rcases hp with hp | hp
    · split at hp
      · next hx =>
        cases List.mem_singleton.1 hp
        exact hname hx
      · cases hp
    · obtain ⟨type, hm, hx⟩ := List.mem_map.1 hp
      cases hx
      exact hinherited type hm
  | variableList hs hh hb =>
    have hk := (List.suffix_cons _ _).trans (((headFrom _).suffix hh).trans hs)
    obtain ⟨b, hm, hp⟩ := List.mem_flatMap.1 hp
    obtain ⟨us, after, hu, hrun, -⟩ := byCommas_forall hb b hm
    obtain ⟨type, ht, hx⟩ := List.mem_map.1 hp
    cases hx
    exact binding_taken (hu.trans hk) hrun (Option.mem_toList.1 ht)
  | function hs hh hf =>
    have hk := (List.suffix_cons _ _).trans (((headFrom _).suffix hh).trans hs)
    obtain ⟨hparameters, hresult⟩ := function_taken hk hf
    rw [Decl.types, List.mem_append] at hp
    rcases hp with hp | hp
    · obtain ⟨p, hm, hx⟩ := List.mem_map.1 hp
      cases hx
      exact hparameters p hm
    · obtain ⟨type, hm, hx⟩ := List.mem_map.1 hp
      cases hx
      exact hresult type (Option.mem_toList.1 hm)

/-- Every recorded type is taken from tokens of the file that stand where a type in its role stands. Its text is read to
its end, as these tokens up to the first that a comment on a line stands before, with the blanks in them squeezed. So it
is read as the tokens it was taken from if and only if no comment on a line stands between them and none of them holds
blanks that would be squeezed. -/
theorem recorded_types {text : String} {ds : List Decl} (h : parse text = .ok ds) {role : TypeRole} {type : String}
    (ht : (role, type) ∈ typesAmong ds) :
    ∃ taken, TakenFrom (Tokens.ofText text).tokens role taken ∧ type = phrase taken ∧
      (Tokens.ofText type).failure = none ∧
      (Tokens.ofText type).tokens.map Token.bare = (sameLine taken).map (fun t => t.bare.squeezed) ∧
      ((Tokens.ofText type).tokens.map Token.bare = taken.map Token.bare ↔ IsVerbatim taken) := by
  obtain ⟨d, hd, hp⟩ := List.mem_flatMap.1 ht
  obtain ⟨taken, htaken, rfl⟩ := types_taken (nodes_parse h d hd) (role, type) hp
  obtain ⟨mark, left, hs, -, -⟩ := htaken.stands
  obtain ⟨t, more, rfl⟩ := List.exists_cons_of_ne_nil htaken.ne_nil
  have hscanned := scanned_suffix (scanned_ofText text) ((List.suffix_cons _ _).trans hs)
  obtain ⟨hfailure, htokens⟩ := tokens_of_phrase hscanned rfl
  refine ⟨t :: more, htaken, rfl, hfailure, htokens, ?_⟩
  rw [htokens]
  exact verbatim_iff

/-- A type over three lines, with a comment of either kind in it. -/
def brokenType : String :=
  "class A \x7b\n    var x: Dictionary<String, // key\n        /* value */\n        Int>\n\x7d"

theorem brokenType_types :
    ∃ ds, parse brokenType = .ok ds ∧
      typesAmong ds = [(.annotated, "Dictionary<String, // key /* value */ Int>")] := by
  have h : (parse brokenType).toOption.any
      (fun ds => typesAmong ds == [(.annotated, "Dictionary<String, // key /* value */ Int>")]) = true := by
    decide +kernel
  obtain ⟨ds, hds, ht⟩ := exists_ok h
  exact ⟨ds, hds, beq_iff_eq.1 ht⟩

theorem brokenType_read : ∃ taken, TakenFrom (Tokens.ofText brokenType).tokens .annotated taken ∧
    phrase taken = "Dictionary<String, // key /* value */ Int>" ∧
    (Tokens.ofText "Dictionary<String, // key /* value */ Int>").failure = none := by
  obtain ⟨ds, hds, ht⟩ := brokenType_types
  have hmem : (TypeRole.annotated, "Dictionary<String, // key /* value */ Int>") ∈ typesAmong ds := by
    rw [ht]
    exact List.mem_cons_self
  obtain ⟨taken, htaken, htext, hfailure, -⟩ := recorded_types hds hmem
  exact ⟨taken, htaken, htext.symm, hfailure⟩

/-- Two of the six tokens of the type are lost behind the comment on a line. -/
theorem comment_swallows_type :
    (∃ ds, parse brokenType = .ok ds ∧
      typesAmong ds = [(.annotated, "Dictionary<String, // key /* value */ Int>")]) ∧
    (Tokens.ofText brokenType).tokens.map Token.text =
      ["class", "A", "\x7b", "var", "x", ":", "Dictionary", "<", "String", ",", "Int", ">", "\x7d"] ∧
    (Tokens.ofText "Dictionary<String, // key /* value */ Int>").tokens.map Token.text =
      ["Dictionary", "<", "String", ","] := by
  refine ⟨brokenType_types, ?_, ?_⟩ <;> decide +kernel

end TestHooks.Swift
