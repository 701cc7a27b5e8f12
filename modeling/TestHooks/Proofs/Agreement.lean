import TestHooks.Proofs.Appending
import TestHooks.Proofs.Calls
import TestHooks.Proofs.LoweredFunctions

/-!
# Signatures and calls

The signature and the call of a forwarding function are written apart from each other, but agree: the signature is read
back as a function with the effects, the labels and the types of the one it stands for, and the call passes on each
parameter that it declares (`signature_and_call_agree`).
-/

namespace TestHooks.Swift

open TestHooks.Text

/-! ### Receivers -/

/-- Names with dots between them. -/
inductive Dotted : List Char → Prop
  | name {cs : List Char} (h : Name cs) : Dotted cs
  | member {cs name : List Char} (h : Dotted cs) (hn : Name name) : Dotted (cs ++ '.' :: name)

theorem Dotted.behind {first cs : List Char} (hf : Name first) (h : Dotted cs) : Dotted (first ++ '.' :: cs) := by
  induction h with
  | name h => exact .member (.name hf) h
  | member _ hn ih =>
    rw [← List.cons_append, ← List.append_assoc]
    exact .member ih hn

theorem Receiver.join {text name : List Char} {es : List Element} (h : Receiver text es) (hn : Name name) :
    Receiver (text ++ '.' :: name) (es ++ [.mark .dot '.', .word name]) where
  begins := by
    have hb := h.begins
    cases text with
    | nil => cases hb
    | cons c cs => exact hb
  spelling := by
    have := h.member hn spelling_nil rfl
    rwa [List.append_nil] at this
  dotted {c cs} _ _ := by
    have hd : isWordChar '.' = false := by decide
    obtain ⟨b, ds, rfl, hb, hdigit, -⟩ := name_begins hn
    refine fitting_append.2 ⟨h.dotted hb hdigit, mark_fits rfl ?_, word_fits hn hd, trivial⟩
    rintro - hx
    exact hb.1 (Option.some.inj hx)
  ends := ⟨es ++ [.mark .dot '.'], _, _, by rw [List.append_assoc]; rfl⟩
  nests := by
    rw [bareTokens_append]
    exact nests_append h.nests rfl

theorem receiver_of_dotted {cs : List Char} (h : Dotted cs) : ∃ es, Receiver cs es := by
  induction h with
  | name h => exact ⟨_, receiver_word h⟩
  | member _ hn ih =>
    obtain ⟨es, hes⟩ := ih
    exact ⟨_, hes.join hn⟩

/-! ### Lexemes of a text -/

/-- The kinds and texts of the tokens of elements. -/
def lexemesOf (es : List Element) : List (TokenKind × String) :=
  (bareTokens es).map fun t => (t.kind, t.text)

@[simp] theorem lexemesOf_nil : lexemesOf [] = [] := rfl

@[simp] theorem lexemesOf_word (cs : List Char) (es : List Element) :
    lexemesOf (.word cs :: es) = (.identifier, String.ofList cs) :: lexemesOf es := rfl

@[simp] theorem lexemesOf_mark (kind : TokenKind) (c : Char) (es : List Element) :
    lexemesOf (.mark kind c :: es) = (kind, String.ofList [c]) :: lexemesOf es := rfl

@[simp] theorem lexemesOf_space (es : List Element) : lexemesOf (.space :: es) = lexemesOf es := rfl

theorem lexemesOf_append (es fs : List Element) : lexemesOf (es ++ fs) = lexemesOf es ++ lexemesOf fs := by
  rw [lexemesOf, bareTokens_append, List.map_append]
  rfl

/-- The kinds and texts of the tokens of a text. -/
def lexemes (text : String) : List (TokenKind × String) :=
  (Tokens.ofText text).tokens.map fun t => (t.kind, t.text)

/-- A text that is spelled by elements is read to its end. -/
theorem Spelling.reads {text : String} {es : List Element} (h : Spelling text.toList es []) :
    (Tokens.ofText text).failure = none ∧ Reads false es (Tokens.ofText text).tokens ∧ lexemes text = lexemesOf es := by
  have hfits := h.fits [] rfl
  have hflat := h.flatten
  rw [List.append_nil] at hflat
  have hreads : Reads false es (Tokens.ofText text).tokens :=
    ⟨.origin, [], rfl, by rw [ofText_of_fitting hfits hflat]⟩
  refine ⟨by rw [ofText_of_fitting hfits hflat], hreads, ?_⟩
  rw [lexemesOf, ← reads_bare hreads, List.map_map]
  rfl

theorem Spelling.behind {e : Element} {text tail : List Char} {es : List Element}
    (h : Spelling (e.text ++ text) (e :: es) tail) : Spelling text es tail where
  flatten := by
    have := h.flatten
    rw [List.flatMap_cons, List.append_assoc] at this
    exact List.append_cancel_left this
  fits after ha := (h.fits after ha).2
  line hm := h.line (List.mem_append_right _ hm)
  comment := h.comment

end TestHooks.Swift

namespace TestHooks.Proxy

open TestHooks.Swift TestHooks.Swift.Reader TestHooks.Text TestHooks.Reader

theorem receiver_for {target : Target} (ht : Dotted target.typeName.toList) (hr : Dotted target.reference.toList)
    (locals : List String) : ∃ es, Receiver (target.receiverFor locals).toList es := by
  have hself : Name "self".toList := .plain (by decide) (by decide)
  apply receiver_of_dotted
  unfold Target.receiverFor Target.receiver
  split
  · rw [String.toList_append]
    exact hr.behind hself
  · split
    · exact ht
    · exact hr

/-! ### Local names -/

theorem freeName_ne_wildcard {taken : List String} {name : String} (h : 'a' ∈ name.toList) :
    freeName taken name ≠ wildcard := by
  fun_induction freeName taken name with
  | case1 taken name _ ih =>
    refine ih ?_
    rw [String.toList_append]
    exact List.mem_append_right _ h
  | case2 =>
    rintro rfl
    exact absurd h (by decide)

/-- Every parameter has a name under which it can be read. -/
theorem localNames_readable (f : Function) : wildcard ∉ localNames f := by
  unfold localNames
  generalize f.parameters.map Parameter.name = taken
  generalize 0 = index
  induction f.parameters generalizing index taken with
  | nil => exact List.not_mem_nil
  | cons p ps ih =>
    rw [localNamesFrom]
    split
    · refine List.not_mem_cons_of_ne_of_not_mem (Ne.symm (freeName_ne_wildcard ?_)) (ih _ _)
      rw [String.toList_append]
      exact List.mem_append_left _ (by decide)
    · next hp => exact List.not_mem_cons_of_ne_of_not_mem (Ne.symm hp) (ih _ _)

theorem length_localNames (f : Function) : (localNames f).length = f.parameters.length := by
  unfold localNames
  generalize f.parameters.map Parameter.name = taken
  generalize 0 = index
  induction f.parameters generalizing index taken with
  | nil => rfl
  | cons p ps ih =>
    rw [localNamesFrom]
    split <;> rw [List.length_cons, List.length_cons, ih]

/-! ### Signatures -/

/-- The text of a return type with the arrow before it. -/
def resultText (type : String) : List Char :=
  (if type.isEmpty then "" else " -> " ++ type).toList

theorem result_clear {type : String} (h : type.isEmpty = true ∨ TypeText ["where"] type) (hc : CommentFree type) :
    ∃ res, ReturnElements type res ∧ Spelling (resultText type) res [] := by
  rcases h with h | h
  · obtain rfl := String.isEmpty_iff.1 h
    exact ⟨[], .none, spelling_nil⟩
  · obtain ⟨tes, ht⟩ := h.spelled hc
    have hspelling : Spelling (type.toList ++ []) tes [] := by
      rw [List.append_nil]
      exact ht.toSpelling
    have hbegins : (type.toList ++ []).head?.any (!isBlank ·) = true := by
      rw [List.append_nil]
      exact ht.begins
    have := arrow_spelling (notEmpty_of_type ht) hspelling hbegins
    rw [List.append_nil] at this
    exact ⟨_, .some ht, this⟩

theorem toList_signature (target : Target) (f : Function) :
    (signature target f).toList = headText (functionModifier target.isStatic f) "func" ++ ' ' ::
      (f.name.toList ++ '(' :: (declaredText (f.parameters.zip (localNames f)) ++ ')' ::
        (((effectsOf f).flatMap fun e => ' ' :: e.text.toList) ++ resultText f.returnType))) := by
  have h := signature_text target f
  have hbrace : " \x7b".toList = [' ', '\x7b'] := rfl
  rw [String.toList_append, clauseRest, returnText, ← resultText, hbrace] at h
  refine List.append_cancel_right (h.trans ?_)
  simp

/-- A function without a body that has the signature of a forwarding function. -/
def declaredSignature (f : Function) : Signature where
  name := f.name
  isOperator := false
  generics := none
  parameters := (f.parameters.zip (localNames f)).map fun q => forwardedParameter q.1 q.2
  effects := effectsOf f
  returnType := if f.returnType.isEmpty then none else some f.returnType
  hasBody := false

theorem function_ends {ws : List Effect} {name type : String} {ps : List Swift.Parameter} {res : List Element}
    (hr : ReturnElements type res) {ts : List Token} (h : Reads false (effectElements ws ++ res) ts) :
    (functionTail name ps).run ts =
      .ok (⟨name, false, none, ps, ws, if type.isEmpty then none else some type, false⟩, []) := by
  obtain ⟨after, left, hleft, heffects, hreturn, hrequirements⟩ := @result_reads ws type res [] hr
    (fun {left} hx => by rw [reads_nil.1 hx]; rfl) ts (by rwa [List.append_nil])
  obtain rfl := reads_nil.1 hleft
  unfold functionTail
  rw [run_bind_eq_ok]
  refine ⟨_, _, heffects, run_bind_eq_ok.2 ⟨_, _, hreturn, run_bind_eq_ok.2 ⟨_, _, hrequirements, ?_⟩⟩⟩
  rw [run_bind_eq_ok]
  exact ⟨none, [], optionally_skip rfl, rfl⟩

/-- The signature is spelled to its end. -/
theorem signature_spelled {f : Function} (hf : f.Clear) (target : Target) :
    ∃ ces res, ClauseElements (f.parameters.zip (localNames f)) ces ∧ ReturnElements f.returnType res ∧
      Spelling (signature target f).toList (headElements (functionModifier target.isStatic f) "func" ++
        (nameAndOpener f.name ++ (ces ++ .mark .rightParen ')' :: (effectElements (effectsOf f) ++ res)))) [] := by
  have htypes : ∀ q ∈ f.parameters.zip (localNames f), ∃ tes, TypeSpelling [] q.1.type tes [] := fun q hq =>
    (hf.declared q hq).type.spelled (hf.parameterTypes q.1 (List.of_mem_zip hq).1)
  obtain ⟨ces, hces, -, hclause⟩ := clause_spelled hf.declared htypes
  obtain ⟨res, hres, hresult⟩ := result_clear hf.returnType hf.result
  have hbegins : (resultText f.returnType).head?.all (· == ' ') = true := by
    unfold resultText
    cases f.returnType.isEmpty with
    | true => rfl
    | false =>
      rw [if_neg Bool.false_ne_true, String.toList_append]
      rfl
  have hbehind := (effects_spelling (effectsOf f) hresult hbegins).1.mark
    (show TokenKind.mark? .rightParen = some ')' from rfl) fun hx => absurd hx (by decide)
  refine ⟨ces, res, hces, hres, ?_⟩
  rw [toList_signature]
  exact head_spelling (modifier_cases target.isStatic f) (.inr rfl) (opener_spelling hf.name (hclause hbehind rfl)) rfl

/-- The signature of a forwarding function is read back. -/
theorem signature_read {f : Function} (hf : f.Clear) (target : Target) :
    ∃ head, parse (signature target f) = .ok [.function head (declaredSignature f)] := by
  obtain ⟨ces, res, hces, hres, hspelling⟩ := signature_spelled hf target
  obtain ⟨hfailure, hreads, -⟩ := hspelling.reads
  obtain ⟨t, more, k, rest, hts, ht, hhead, hk, hv, hrest⟩ :=
    head_reads (modifier_cases target.isStatic f) (.inr rfl) hreads
  obtain ⟨opener, after, ho, hafter, hrun⟩ := function_opens hrest
  obtain ⟨left, hleft, hparameters⟩ := clause_reads hces ho hafter
  have hfunction : function.run rest = .ok (declaredSignature f, []) := by
    rw [hrun, run_bind_eq_ok]
    exact ⟨_, _, hparameters, function_ends hres hleft⟩
  have hintroducer := introducer_function hk hv
  let head : Head := ⟨[], headModifiers (functionModifier target.isStatic f), t.position⟩
  have hdecl : declarationRun false t more = .ok (some (.function head (declaredSignature f)), []) := by
    refine declarationRun_flat (by simp [ht]) hhead (fun keyword hx => ?_) ?_
    · rw [hintroducer] at hx
      cases hx
    · rw [hintroducer, flatDeclaration, run_bind_eq_ok]
      exact ⟨_, _, hfunction, rfl⟩
  have htop := topLevel_declaration (by simp [ht]) (by simp [ht]) hdecl
  have hend : topLevel [] = .ok [] := by rw [topLevel]
  rw [hend, ← hts] at htop
  refine ⟨head, ?_⟩
  unfold parse
  dsimp only
  rw [hfailure, htop]
  rfl

/-! ### Types of parameters -/

theorem takeWhile_collapse (cs : List Char) : (collapse cs).takeWhile (· != ' ') = cs.takeWhile (!isBlank ·) := by
  induction cs with
  | nil => rfl
  | cons c cs ih =>
    rw [collapse, collapseFrom, if_neg Bool.false_ne_true]
    by_cases hc : isBlank c = true
    · rw [if_pos hc, List.takeWhile_cons, List.takeWhile_cons, hc]
      rfl
    · have hspace : (c != ' ') = true := by
        rw [bne_iff_ne]
        rintro rfl
        exact hc isBlank_space
      have hletter : (!isBlank c) = true := by simpa using hc
      rw [if_neg hc, List.takeWhile_cons, List.takeWhile_cons, hspace, hletter]
      exact congrArg (c :: ·) ih

/-- A word stands before the first blank of a text if the text begins with that word as a token, and a blank or nothing is
behind it. -/
theorem before_blank_iff {t : Token} {rest : List Char} (hf : t.element.Fits rest) {word : String}
    (hn : Name word.toList) (hw : ∀ c ∈ word.toList, (!isBlank c) = true) :
    (t.text.toList ++ rest).takeWhile (!isBlank ·) = word.toList ↔
      t.isIdentifier word = true ∧ rest.head?.all isBlank = true := by
  rw [Token.isIdentifier, Bool.and_eq_true, beq_iff_eq, beq_iff_eq]
  constructor
  · intro h
    have hsplit := @List.takeWhile_append_dropWhile _ (!isBlank ·) (t.text.toList ++ rest)
    rw [h] at hsplit
    generalize hr : (t.text.toList ++ rest).dropWhile (!isBlank ·) = behind at hsplit
    have hblank : behind.head?.all isBlank = true := by
      have := List.head?_dropWhile_not (!isBlank ·) (t.text.toList ++ rest)
      rw [hr] at this
      cases behind with
      | nil => rfl
      | cons c cs => simpa using this
    have hfits : (Element.word word.toList).Fits behind := by
      apply word_fits hn
      cases behind with
      | nil => rfl
      | cons c cs =>
        rw [List.head?_cons, Option.any_some, Bool.eq_false_iff]
        intro hx
        rw [List.head?_cons, Option.all_some, word_not_blank hx] at hblank
        cases hblank
    have heq := hf.unique hfits hsplit.symm
    obtain ⟨hkind, htext⟩ := Element.mk.inj heq
    refine ⟨⟨by simpa using hkind, String.toList_inj.1 htext⟩, ?_⟩
    rw [htext] at hsplit
    rw [← List.append_cancel_left hsplit, hblank]
  · rintro ⟨⟨-, rfl⟩, hr⟩
    rw [List.takeWhile_append_of_pos hw]
    cases rest with
    | nil => exact List.append_nil _
    | cons c cs =>
      rw [List.head?_cons, Option.all_some] at hr
      rw [List.takeWhile_cons_of_neg (by rw [hr]; exact Bool.false_ne_true), List.append_nil]

/-- What is written of tokens begins with a blank if the first of them stands behind one. -/
theorem written_blank_iff {ts : List Token} (hl : ∀ t ∈ ts, t.Lexed) :
    (Token.written ts).head?.all isBlank = true ↔ ∀ u, ts.head? = some u → u.gap.toList.head?.any isBlank = true := by
  cases ts with
  | nil => simp [Token.written]
  | cons t ts =>
    obtain ⟨c, cs, hc, hb⟩ := (hl t List.mem_cons_self).text_eq_cons
    rw [Token.written_cons, hc]
    cases hx : t.gap.toList <;> simp [hb, hx]

/-- A parameter is passed with an ampersand if the first token of its type is the word `inout` and a blank or nothing is
behind it. -/
theorem isInout_phrase {p : Parameter} {t : Token} {ts : List Token} (hp : p.type = phrase (t :: ts))
    (hf : t.element.Fits (Token.written ts)) (hl : ∀ u ∈ ts, u.Lexed) :
    p.isInout = true ↔
      t.isIdentifier "inout" = true ∧ ∀ u, ts.head? = some u → u.gap.toList.head?.any isBlank = true := by
  have hword : Name "inout".toList := .plain (by decide) (by decide)
  rw [← written_blank_iff hl, ← before_blank_iff hf hword (by decide), Parameter.isInout, beq_iff_eq, ← String.toList_inj,
    String.toList_ofList, hp, phrase, String.toList_ofList, takeWhile_collapse]

theorem written_type {stops : List String} {type : String} {es : List Element} (h : TypeSpelling stops type es []) :
    (Tokens.ofText type).tokens = Token.ofElements .origin [] es ∧
      Token.written (Tokens.ofText type).tokens = type.toList := by
  have hflat := h.flatten
  rw [List.append_nil] at hflat
  have hn : es ≠ [] := by
    obtain ⟨kind, cs, more, rfl⟩ := h.starts
    exact List.cons_ne_nil _ _
  have hwritten := Token.written_ofElements .origin [] es
  rw [finalGap_of_lexeme (endsInLexeme_of_last hn (h.ends rfl)), List.append_nil, List.nil_append, hflat] at hwritten
  rw [ofText_of_fitting (h.fits [] rfl) hflat]
  exact ⟨rfl, hwritten⟩

/-- Where nothing but blanks stands before a token, it touches what is before unless there is a blank. -/
theorem untouched_iff {t : Token} (hg : ∀ c ∈ t.gap.toList, isBlank c = true) :
    (!t.isAttached) = true ↔ t.gap.toList.head?.any isBlank = true := by
  rw [Token.isAttached]
  cases hx : t.gap.toList with
  | nil =>
    rw [String.toList_eq_nil_iff.1 hx]
    decide
  | cons c cs =>
    rw [isEmpty_of_cons hx, List.head?_cons, Option.any_some, hg c (hx ▸ List.mem_cons_self)]
    decide

/-- A parameter whose type holds no comments is passed with an ampersand if the type begins with the word `inout` and no
token touches it. -/
theorem isInout_iff {p : Parameter} (h : TypeText [] p.type) (hc : CommentFree p.type) :
    p.isInout = true ↔ ∃ t ts, (Tokens.ofText p.type).tokens = t :: ts ∧ t.isIdentifier "inout" = true ∧
      ts.head?.all (!·.isAttached) = true := by
  obtain ⟨es, hs⟩ := h.spelled hc
  obtain ⟨htokens, hwritten⟩ := written_type hs
  obtain ⟨kind, cs, more, rfl⟩ := hs.starts
  generalize hts : Token.ofElements (Place.origin.advance cs) [] more = ts
  have hsplit : (Tokens.ofText p.type).tokens = ⟨kind, String.ofList cs, "", .origin⟩ :: ts := by
    rw [htokens, ← hts]
    rfl
  have htext : cs ++ Token.written ts = p.type.toList := by
    rw [← hwritten, hsplit, Token.written_cons]
    simp
  have hphrase : p.type = phrase (⟨kind, String.ofList cs, "", .origin⟩ :: ts) := by
    rw [phrase, String.toList_ofList, htext, hs.isCollapsed, String.ofList_toList]
  have hfits : (⟨.lexeme kind, cs⟩ : Element).Fits (Token.written ts) := by
    have hflat := hs.flatten
    rw [List.flatMap_cons, List.append_nil, ← htext] at hflat
    rw [← List.append_cancel_left hflat, ← List.append_nil (more.flatMap _)]
    exact (hs.fits [] rfl).1
  have hmem {t : Token} (ht : t ∈ ts) : t ∈ (Tokens.ofText p.type).tokens := hsplit ▸ List.mem_cons_of_mem _ ht
  rw [isInout_phrase hphrase (by rwa [Token.element, String.toList_ofList])
    fun u hu => (Token.standing_ofText p.type).lexed u (hmem hu)]
  have hattached : ts.head?.all (!·.isAttached) = true ↔
      ∀ u, ts.head? = some u → u.gap.toList.head?.any isBlank = true := by
    rw [Option.all_eq_true]
    exact forall₂_congr fun u hu => untouched_iff (gap_ofText hc u (hmem (List.mem_of_mem_head? hu)))
  rw [← hattached]
  constructor
  · exact fun hx => ⟨_, _, hsplit, hx⟩
  · rintro ⟨t, us, hus, hx⟩
    rw [hsplit] at hus
    cases hus
    exact hx

/-! ### Arguments -/

/-- The tokens of the argument that passes a parameter on under its name. -/
def passedOn (wildcardLabels : Bool) (p : Parameter) : List (TokenKind × String) :=
  (if p.isUnlabeled && !wildcardLabels then [] else [(.identifier, p.label), (.colon, ":")]) ++
    ((if p.isInout then [(.operator, "&")] else []) ++ [(.identifier, p.name)])

/-- The tokens of a call on a receiver that passes on the parameters of a function. -/
def calledOn (receiver : List (TokenKind × String)) (wildcardLabels : Bool) (g : Function) : List (TokenKind × String) :=
  (if g.isThrowing then [(.identifier, "try")] else []) ++ ((if g.isAsync then [(.identifier, "await")] else []) ++
    (receiver ++ (.dot, ".") :: (.identifier, g.name) :: (.leftParen, "(") ::
      ([(.comma, ",")].intercalate (g.parameters.map (passedOn wildcardLabels)) ++ [(.rightParen, ")")])))

/-- The parameter under the name that the forwarding function reads it by. -/
def renamed (q : Parameter × String) : Parameter := { q.1 with name := q.2 }

section Arguments

variable (wildcardLabels : Bool)

theorem lexemesOf_argument (q : Parameter × String) :
    lexemesOf (argumentElements wildcardLabels q) = passedOn wildcardLabels (renamed q) := by
  have hlabel (label : String) : lexemesOf [.word label.toList, .mark .colon ':', .space] =
      [(.identifier, label), (.colon, ":")] := by
    simp
  have hname (name : String) : lexemesOf [.word name.toList] = [(.identifier, name)] := by
    simp
  have hinout : (renamed q).isInout = q.1.isInout := rfl
  have hunlabeled : (renamed q).isUnlabeled = q.1.isUnlabeled := rfl
  rw [argumentElements, passedOn, lexemesOf_append, lexemesOf_append, hname, hinout, hunlabeled]
  congr 1
  · split
    · rfl
    · exact hlabel q.1.label
  · congr 1
    split <;> rfl

theorem lexemesOf_next (qs : List (Parameter × String)) :
    lexemesOf (nextArguments wildcardLabels qs) =
      (qs.map renamed).flatMap fun p => (.comma, ",") :: passedOn wildcardLabels p := by
  induction qs with
  | nil => rfl
  | cons q qs ih =>
    have hcomma : lexemesOf [.mark .comma ',', .space] = [(.comma, ",")] := rfl
    rw [nextArguments, List.flatMap_cons, lexemesOf_append, ← nextArguments, ih, List.map_cons, List.flatMap_cons,
      ← lexemesOf_argument]
    exact congrArg (· ++ _) (lexemesOf_append [.mark .comma ',', .space] (argumentElements wildcardLabels q))

/-- Behind the first of the pieces each follows a separator. -/
theorem intercalate_cons {α : Type} (separator first : List α) (others : List (List α)) :
    separator.intercalate (first :: others) = first ++ others.flatMap (separator ++ ·) := by
  induction others generalizing first with
  | nil => simp
  | cons next others ih => rw [List.intercalate_cons_cons, ih, List.flatMap_cons, List.append_assoc, List.append_assoc]

theorem lexemesOf_passed (qs : List (Parameter × String)) :
    lexemesOf (passedElements wildcardLabels qs) =
      [(.comma, ",")].intercalate ((qs.map renamed).map (passedOn wildcardLabels)) ++ [(.rightParen, ")")] := by
  cases qs with
  | nil => rfl
  | cons q qs =>
    rw [passedElements, lexemesOf_append, lexemesOf_append, lexemesOf_argument, lexemesOf_next, List.map_cons, List.map_cons,
      intercalate_cons, List.flatMap_map (passedOn wildcardLabels), List.append_assoc]
    rfl

end Arguments

/-! ### Functions that are declared again -/

/-- The function `g` declares what `f` declares, but names each parameter. -/
structure Redeclares (f g : Function) : Prop where
  name : g.name = f.name
  labels : g.parameters.map Parameter.label = f.parameters.map Parameter.label
  types : g.parameters.map Parameter.type = f.parameters.map Parameter.type
  names : g.parameters.map Parameter.name = localNames f
  readable : ∀ p ∈ g.parameters, p.name ≠ wildcard
  returnType : g.returnType = f.returnType
  isAsync : g.isAsync = f.isAsync
  isThrowing : g.isThrowing = f.isThrowing

/-- The function that the signature of a forwarding function declares. -/
def redeclared (head : Head) (f : Function) : Function where
  name := f.name
  parameters := (f.parameters.zip (localNames f)).map renamed
  returnType := f.returnType
  modifiers := head.modifierNames
  isAsync := f.isAsync
  isThrowing := f.isThrowing
  position := some head.position

theorem redeclares (head : Head) (f : Function) : Redeclares f (redeclared head f) := by
  have hfst : (f.parameters.zip (localNames f)).map Prod.fst = f.parameters :=
    List.map_fst_zip (length_localNames f).ge
  have hsnd : (f.parameters.zip (localNames f)).map Prod.snd = localNames f :=
    List.map_snd_zip (length_localNames f).le
  refine ⟨rfl, ?labels, ?types, ?names, ?readable, rfl, rfl, rfl⟩
  case labels =>
    conv_rhs => rw [← hfst, List.map_map]
    exact List.map_map
  case types =>
    conv_rhs => rw [← hfst, List.map_map]
    exact List.map_map
  case names =>
    conv_rhs => rw [← hsnd]
    exact List.map_map
  case readable =>
    intro p hp hx
    obtain ⟨q, hq, rfl⟩ := List.mem_map.1 hp
    exact localNames_readable f (hx ▸ (List.of_mem_zip hq).2)

theorem ofLabel_forwarded {q : Parameter × String} (h : q.2.isEmpty = false) :
    .ofLabel (forwardedParameter q.1 q.2).firstName (forwardedParameter q.1 q.2).secondName
      (forwardedParameter q.1 q.2).type = renamed q := by
  unfold forwardedParameter renamed Parameter.ofLabel
  dsimp only
  by_cases he : q.2 = q.1.label
  · rw [if_pos he, he]
  · rw [if_neg he]
    dsimp only
    rw [h, if_neg Bool.false_ne_true]

theorem member_of_signature {f : Function} (hf : f.Clear) (head : Head) :
    memberOfSignature head (declaredSignature f) = .function (redeclared head f) := by
  have hsingle : (declaredSignature f).parameters.any (·.isVariadic) = false := by
    rw [List.any_eq_false]
    intro p hp
    obtain ⟨q, hq, rfl⟩ := List.mem_map.1 hp
    exact Bool.eq_false_iff.1 (hf.single q.1 (List.of_mem_zip hq).1)
  have hreason : unsupportedReason? (declaredSignature f) = none := by
    rw [unsupportedReason?, hsingle]
    rfl
  have hparameters : (declaredSignature f).parameters.map (fun p => .ofLabel p.firstName p.secondName p.type) =
      (f.parameters.zip (localNames f)).map renamed := by
    rw [declaredSignature, List.map_map]
    refine List.map_congr_left fun q hq => ?_
    obtain ⟨c, cs, hc, -⟩ := name_begins (hf.declared q hq).name
    exact ofLabel_forwarded (isEmpty_of_cons hc)
  have hresult : (declaredSignature f).returnType.getD "" = f.returnType := by
    rw [declaredSignature]
    cases h : f.returnType.isEmpty with
    | true => exact (String.isEmpty_iff.1 h).symm
    | false => rfl
  have heffects : (effectsOf f).contains .async = f.isAsync ∧
      ((effectsOf f).contains .throws || (effectsOf f).contains .rethrows) = f.isThrowing := by
    unfold effectsOf
    cases f.isAsync <;> cases f.isThrowing <;> exact ⟨rfl, rfl⟩
  unfold memberOfSignature
  rw [hreason]
  dsimp only
  rw [hparameters, hresult, redeclared]
  congr 2
  · exact heffects.1
  · exact heffects.2

theorem lexemesOf_wordIf (written : Bool) (word : String) :
    lexemesOf (wordIf written word) = if written then [(.identifier, word)] else [] := by
  cases written with
  | false => rfl
  | true => simp [wordIf]

theorem call_lexemes {f : Function} (hf : f.Clear) {target : Target} (ht : Dotted target.typeName.toList)
    (hr : Dotted target.reference.toList) (wildcardLabels : Bool) (head : Head) :
    (Tokens.ofText (call target wildcardLabels f)).failure = none ∧ lexemes (call target wildcardLabels f) =
      calledOn (lexemes (target.receiverFor (localNames f))) wildcardLabels (redeclared head f) := by
  obtain ⟨res, hres⟩ := receiver_for ht hr (localNames f)
  have hbody := (call_body wildcardLabels hf.name hres hf.declared).spelling
  have hreturn : ("return " ++ call target wildcardLabels f).toList =
      (Element.word "return".toList).text ++ (Element.space.text ++ (call target wildcardLabels f).toList) := by
    rw [String.toList_append]
    rfl
  rw [hreturn] at hbody
  obtain ⟨hfailure, -, hlexemes⟩ := hbody.behind.behind.reads
  obtain ⟨-, -, hreceiver⟩ := hres.spelling.reads
  have hopen : lexemesOf [.mark .dot '.', .word f.name.toList, .mark .leftParen '('] =
      [(.dot, "."), (.identifier, f.name), (.leftParen, "(")] := by
    simp
  have hmember := lexemesOf_append [.mark .dot '.', .word f.name.toList, .mark .leftParen '(']
    (passedElements wildcardLabels (f.parameters.zip (localNames f)))
  rw [hopen, lexemesOf_passed] at hmember
  refine ⟨hfailure, ?_⟩
  rw [hlexemes, lexemesOf_append, lexemesOf_append, lexemesOf_append, lexemesOf_wordIf, lexemesOf_wordIf,
    ← hreceiver]
  exact congrArg (fun rest => _ ++ (_ ++ (_ ++ rest))) hmember

/-! ### Agreement -/

/-- The signature of a forwarding function declares what the function declares, and the call passes on each parameter
under the name that the signature gives it. An ampersand is written where a space or nothing is behind `inout`. -/
theorem signature_and_call_agree {text : String} {ds : List Decl} {f : Function} {target : Target}
    (h : parse text = .ok ds) (hc : CommentFree text) (hf : f ∈ functionsAmong ds)
    (ht : Dotted target.typeName.toList) (hr : Dotted target.reference.toList) (wildcardLabels : Bool) :
    (∃ head s g, parse (signature target f) = .ok [.function head s] ∧ memberOfSignature head s = .function g ∧
      Redeclares f g ∧ (Tokens.ofText (call target wildcardLabels f)).failure = none ∧
        lexemes (call target wildcardLabels f) =
          calledOn (lexemes (target.receiverFor (localNames f))) wildcardLabels g) ∧
    ∀ p ∈ f.parameters, p.isInout = true ↔ ∃ t ts, (Tokens.ofText p.type).tokens = t :: ts ∧
      t.isIdentifier "inout" = true ∧ ts.head?.all (!·.isAttached) = true := by
  have hclear := lowered_clear h hc hf
  obtain ⟨head, hread⟩ := signature_read hclear target
  obtain ⟨hfailure, hlexemes⟩ := call_lexemes hclear ht hr wildcardLabels head
  refine ⟨⟨head, declaredSignature f, redeclared head f, hread, member_of_signature hclear head, redeclares head f,
    hfailure, hlexemes⟩, fun p hp => ?_⟩
  exact isInout_iff (hclear.parameters p hp).type (hclear.parameterTypes p hp)

/-- A function with a parameter that cannot be read, and with one that hides the stored instance. -/
def hidingText : String :=
  "class A \x7b\n    func f(_ _: inout Int, b target: Int) async throws \x7b\x7d\n\x7d"

theorem hidingText_agrees :
    CommentFree hidingText ∧ Dotted "A".toList ∧ Dotted "target".toList ∧
      ∃ ds f, parse hidingText = .ok ds ∧ f ∈ functionsAmong ds ∧ localNames f = ["arg0", "target"] ∧
        (∃ head s g, parse (signature ⟨"A", false, "target"⟩ f) = .ok [.function head s] ∧
          memberOfSignature head s = .function g ∧ Redeclares f g) ∧
        (lexemes (call ⟨"A", false, "target"⟩ false f)).map Prod.snd =
          ["try", "await", "self", ".", "target", ".", "f", "(", "&", "arg0", ",", "b", ":", "target", ")"] := by
  have hc : CommentFree hidingText := by
    unfold CommentFree
    decide +kernel
  have hread : (parse hidingText).toOption.any (fun ds => (functionsAmong ds).any fun f =>
      localNames f == ["arg0", "target"] && (lexemes (call ⟨"A", false, "target"⟩ false f)).map Prod.snd ==
        ["try", "await", "self", ".", "target", ".", "f", "(", "&", "arg0", ",", "b", ":", "target", ")"]) = true := by
    decide +kernel
  obtain ⟨ds, hds, hread⟩ := exists_ok hread
  obtain ⟨f, hf, hread⟩ := List.any_eq_true.1 hread
  rw [Bool.and_eq_true, beq_iff_eq, beq_iff_eq] at hread
  have ht : Dotted "A".toList := .name (.plain (by decide) (by decide))
  have hr : Dotted "target".toList := .name (.plain (by decide) (by decide))
  obtain ⟨⟨head, s, g, hs, hg, hfg, -⟩, -⟩ := @signature_and_call_agree _ _ _ ⟨"A", false, "target"⟩ hds hc hf ht hr false
  exact ⟨hc, ht, hr, ds, f, hds, hf, hread.1, ⟨head, s, g, hs, hg, hfg⟩, hread.2⟩

/-- A function with a parameter whose type goes on right behind `inout`. -/
def touchingText : String :=
  "@Testable\nclass A \x7b private func f(_ x: inout[Int]) \x7b\x7d \x7d"

/-- The parameter is passed on without an ampersand. -/
theorem touching_inout :
    CommentFree touchingText ∧ ∃ ds f p, parse touchingText = .ok ds ∧ f ∈ functionsAmong ds ∧ p ∈ f.parameters ∧
      (Tokens.ofText p.type).tokens.map Token.text = ["inout", "[", "Int", "]"] ∧
      (lexemes (call ⟨"A", false, "target"⟩ false f)).map Prod.snd = ["target", ".", "f", "(", "x", ")"] := by
  have hread : (parse touchingText).toOption.any (fun ds => (functionsAmong ds).any fun f => f.parameters.any fun p =>
      (Tokens.ofText p.type).tokens.map Token.text == ["inout", "[", "Int", "]"] &&
        (lexemes (call ⟨"A", false, "target"⟩ false f)).map Prod.snd == ["target", ".", "f", "(", "x", ")"]) = true := by
    decide +kernel
  obtain ⟨ds, hds, hread⟩ := exists_ok hread
  obtain ⟨f, hf, hread⟩ := List.any_eq_true.1 hread
  obtain ⟨p, hp, hread⟩ := List.any_eq_true.1 hread
  rw [Bool.and_eq_true, beq_iff_eq, beq_iff_eq] at hread
  refine ⟨?_, ds, f, p, hds, hf, hp, hread⟩
  unfold CommentFree
  decide +kernel

end TestHooks.Proxy
