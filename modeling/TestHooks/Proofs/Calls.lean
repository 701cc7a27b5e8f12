import TestHooks.Proofs.Parameters

/-!
# Forwarding functions

A forwarding function calls the function it stands for with its own arguments. Its declaration is read back as it is
meant, unless a comment in one of its types swallows the rest of a line.
-/

namespace TestHooks.Proxy

open TestHooks.Swift TestHooks.Swift.Reader TestHooks.Text TestHooks.Reader

/-! ### Calls -/

/-- Tokens inside brackets, none of which is a bracket. -/
def Flat (ts : List Token) : Prop :=
  ∀ t ∈ ts, t.kind ∈ [TokenKind.identifier, .colon, .comma, .operator]

theorem Flat.append {ts us : List Token} (ht : Flat ts) (hu : Flat us) : Flat (ts ++ us) := by
  intro t hm
  rcases List.mem_append.1 hm with hm | hm
  · exact ht t hm
  · exact hu t hm

theorem nests_flat {closer : TokenKind} {unclosed : List TokenKind} {ts us : List Token} (h : Flat ts) :
    nests (closer :: unclosed) (ts ++ us) = nests (closer :: unclosed) us := by
  induction ts with
  | nil => rfl
  | cons t ts ih =>
    have hk := h t List.mem_cons_self
    simp only [List.mem_cons, List.not_mem_nil, or_false] at hk
    rw [List.cons_append, nests, ih fun u hu => h u (List.mem_cons_of_mem _ hu)]
    rcases hk with hk | hk | hk | hk <;> simp [hk]

theorem flat_word (cs : List Char) : Flat (bareTokens [.word cs]) := by
  simp [Flat, bareTokens, Element.token?, Element.word]

section Arguments

variable (wildcardLabels : Bool)

/-- The elements of an argument. -/
def argumentElements (q : Parameter × String) : List Element :=
  (if q.1.isUnlabeled && !wildcardLabels then [] else [.word q.1.label.toList, .mark .colon ':', .space]) ++
    ((if q.1.isInout then [⟨.lexeme .operator, ['&']⟩] else []) ++ [.word q.2.toList])

theorem argument_flat (q : Parameter × String) : Flat (bareTokens (argumentElements wildcardLabels q)) := by
  have hlabel : Flat (bareTokens [.word q.1.label.toList, .mark .colon ':', .space]) := by
    have hcolon : Flat (bareTokens [.mark .colon ':', .space]) := by
      simp [Flat, bareTokens, Element.token?, Element.mark, Element.space]
    exact (flat_word q.1.label.toList).append hcolon
  have hinout : Flat (bareTokens [⟨.lexeme .operator, ['&']⟩]) := by simp [Flat, bareTokens, Element.token?]
  rw [argumentElements, bareTokens_append, bareTokens_append]
  refine Flat.append ?_ (Flat.append ?_ (flat_word _))
  · split
    · exact List.forall_mem_nil _
    · exact hlabel
  · split
    · exact hinout
    · exact List.forall_mem_nil _

theorem argument_begins {q : Parameter × String} (hq : SpelledParameter q) (rest : List Char) :
    ((argument wildcardLabels q.1 q.2).toList ++ rest).head?.any (!isBlank ·) = true := by
  obtain ⟨c, cs, hc, -, -, -, hb⟩ := name_begins hq.label
  obtain ⟨d, ds, hd, -, -, -, hb'⟩ := name_begins hq.name
  have ha : isBlank '&' = false := by decide
  unfold argument
  dsimp only
  split
  · split <;> simp [hd, hb', ha]
  · simp [hc, hb]

theorem argument_spelling {q : Parameter × String} (hq : SpelledParameter q) {text : List Char}
    {es : List Element} (h : Spelling text es []) (hs : text.head?.any isWordChar = false) :
    Spelling ((argument wildcardLabels q.1 q.2).toList ++ text) (argumentElements wildcardLabels q ++ es) [] := by
  obtain ⟨d, ds, hd, -, -, ho, hb⟩ := name_begins hq.name
  have hvalue : Spelling ((if q.1.isInout then "&" ++ q.2 else q.2).toList ++ text)
      (((if q.1.isInout then [⟨.lexeme .operator, ['&']⟩] else []) ++ [.word q.2.toList]) ++ es) [] := by
    have hname := h.word hq.name hs
    split
    · have := hname.operator (.inr rfl) (by rw [hd, List.cons_append, List.head?_cons, Option.any_some, ho])
      simpa using this
    · exact hname
  have hbegins : ((if q.1.isInout then "&" ++ q.2 else q.2).toList ++ text).head?.any (!isBlank ·) = true := by
    have ha : isBlank '&' = false := by decide
    split <;> simp [hd, hb, ha]
  have hcolon : ':' = '.' → (' ' :: ((if q.1.isInout then "&" ++ q.2 else q.2).toList ++ text)).head? ≠ some '.' := nofun
  unfold argument argumentElements
  dsimp only
  split
  · exact hvalue
  · have hmark := (hvalue.space hbegins).mark (show TokenKind.mark? .colon = some ':' from rfl) hcolon
    have hw : isWordChar ':' = false := by decide
    have := hmark.word hq.label hw
    simpa using this

/-- The elements of arguments, each after a comma. -/
def nextArguments (qs : List (Parameter × String)) : List Element :=
  qs.flatMap fun q => .mark .comma ',' :: .space :: argumentElements wildcardLabels q

theorem next_flat (qs : List (Parameter × String)) :
    Flat (bareTokens (nextArguments wildcardLabels qs)) := by
  induction qs with
  | nil => exact List.forall_mem_nil _
  | cons q qs ih =>
    have hcomma : Flat (bareTokens [.mark .comma ',', .space]) := by
      simp [Flat, bareTokens, Element.token?, Element.mark, Element.space]
    rw [nextArguments, List.flatMap_cons, ← nextArguments, bareTokens_append]
    exact (hcomma.append (argument_flat wildcardLabels q)).append ih

theorem next_spelling {qs : List (Parameter × String)} (hq : ∀ q ∈ qs, SpelledParameter q)
    {text : List Char} {es : List Element} (h : Spelling text es []) (hs : text.head?.any isWordChar = false) :
    Spelling ((qs.flatMap fun q => ',' :: ' ' :: (argument wildcardLabels q.1 q.2).toList) ++ text)
      (nextArguments wildcardLabels qs ++ es) [] := by
  induction qs with
  | nil => exact h
  | cons q qs ih =>
    have hrest := ih fun r hr => hq r (List.mem_cons_of_mem _ hr)
    have hfirst := hq q List.mem_cons_self
    have hhead : ((qs.flatMap fun q => ',' :: ' ' :: (argument wildcardLabels q.1 q.2).toList) ++ text).head?.any
        isWordChar = false := by
      cases qs with
      | nil => exact hs
      | cons r qs =>
        have : isWordChar ',' = false := by decide
        simp [this]
    have hargument := argument_spelling wildcardLabels hfirst hrest hhead
    have := (hargument.space (argument_begins wildcardLabels hfirst _)).mark (show TokenKind.mark? .comma = some ',' from rfl) nofun
    simpa [nextArguments] using this

/-- The elements of the arguments of a call and of the parenthesis behind them. -/
def passedElements : List (Parameter × String) → List Element
  | [] => [.mark .rightParen ')']
  | q :: qs => argumentElements wildcardLabels q ++ (nextArguments wildcardLabels qs ++ [.mark .rightParen ')'])

theorem passed_spelling {qs : List (Parameter × String)} (hq : ∀ q ∈ qs, SpelledParameter q) :
    Spelling (joinWith ", ".toList (qs.map fun q => (argument wildcardLabels q.1 q.2).toList) ++ [')'])
      (passedElements wildcardLabels qs) [] := by
  have hclose : Spelling [')'] [.mark .rightParen ')'] [] := spelling_nil.mark rfl (by decide)
  cases qs with
  | nil => exact hclose
  | cons q qs =>
    have hnext := next_spelling wildcardLabels (fun r hr => hq r (List.mem_cons_of_mem _ hr)) hclose (by decide)
    have hhead : ((qs.flatMap fun q => ',' :: ' ' :: (argument wildcardLabels q.1 q.2).toList) ++ [')']).head?.any
        isWordChar = false := by
      have hmark : isWordChar ',' = false ∧ isWordChar ')' = false := by decide
      cases qs <;> simp [hmark]
    have := argument_spelling wildcardLabels (hq q List.mem_cons_self) hnext hhead
    rw [List.map_cons, joinWith_cons, List.append_assoc, List.flatMap_map]
    exact this

theorem passed_nests (qs : List (Parameter × String)) :
    nests [.rightParen] (bareTokens (passedElements wildcardLabels qs)) = true := by
  have hclose : nests [.rightParen] (bareTokens [.mark .rightParen ')']) = true := rfl
  cases qs with
  | nil => exact hclose
  | cons q qs =>
    rw [passedElements, bareTokens_append, bareTokens_append, nests_flat (argument_flat wildcardLabels q),
      nests_flat (next_flat wildcardLabels qs)]
    exact hclose

end Arguments

theorem joinTexts_zipWith (write : Parameter → String → String) (ps : List Parameter) (names : List String) :
    (joinTexts ", " (ps.zipWith write names)).toList =
      joinWith ", ".toList ((ps.zip names).map fun q => (write q.1 q.2).toList) := by
  rw [joinTexts, String.toList_ofList, ← List.map_uncurry_zip_eq_zipWith, List.map_map]
  rfl

/-- The elements of a word before a space, if it is written. -/
def wordIf (written : Bool) (word : String) : List Element :=
  if written then [.word word.toList, .space] else []

theorem wordIf_spelling {written : Bool} {word : String} (hn : Name word.toList) {text tail : List Char}
    {es : List Element} (h : Spelling text es tail) (hb : text.head?.any (!isBlank ·) = true) :
    Spelling ((if written then word ++ " " else "").toList ++ text) (wordIf written word ++ es) tail ∧
      ((if written then word ++ " " else "").toList ++ text).head?.any (!isBlank ·) = true := by
  cases written with
  | false => exact ⟨h, hb⟩
  | true =>
    have hspace : isWordChar ' ' = false := by decide
    have hw := (h.space hb).word hn hspace
    obtain ⟨c, cs, hc, -, -, -, hbl⟩ := name_begins hn
    exact ⟨by simpa [wordIf] using hw, by simp [hc, hbl]⟩

theorem wordIf_nests (written : Bool) (word : String) : nests [] (bareTokens (wordIf written word)) = true := by
  cases written <;> rfl

/-- The elements of the body of a forwarding function that calls something on a receiver of elements `res`. -/
def callElements (wildcardLabels : Bool) (f : Function) (res : List Element) : List Element :=
  .word "return".toList :: .space :: (wordIf f.isThrowing "try" ++ (wordIf f.isAsync "await" ++
    (res ++ .mark .dot '.' :: .word f.name.toList :: .mark .leftParen '(' ::
      passedElements wildcardLabels (f.parameters.zip (localNames f)))))

/-- What is written behind the parenthesis that opens the arguments of a call. -/
def passedText (wildcardLabels : Bool) (f : Function) : List Char :=
  (joinTexts ", " (f.parameters.zipWith (argument wildcardLabels) (localNames f))).toList ++ [')']

theorem call_text (target : Target) (wildcardLabels : Bool) (f : Function) :
    ("return " ++ call target wildcardLabels f).toList = "return".toList ++ ' ' ::
      ((if f.isThrowing then "try" ++ " " else "").toList ++ ((if f.isAsync then "await" ++ " " else "").toList ++
        ((target.receiverFor (localNames f)).toList ++ '.' :: (f.name.toList ++ '(' :: passedText wildcardLabels f)))) := by
  simp [call, passedText]

/-- What stands before the receiver of a call. -/
theorem lead_spelling (f : Function) {text tail : List Char} {es : List Element} (h : Spelling text es tail)
    (hb : text.head?.any (!isBlank ·) = true) :
    Spelling ("return".toList ++ ' ' :: ((if f.isThrowing then "try" ++ " " else "").toList ++
        ((if f.isAsync then "await" ++ " " else "").toList ++ text)))
      (.word "return".toList :: .space :: (wordIf f.isThrowing "try" ++ (wordIf f.isAsync "await" ++ es))) tail := by
  have hwords : Name "try".toList ∧ Name "await".toList ∧ Name "return".toList :=
    ⟨.plain (by decide) (by decide), .plain (by decide) (by decide), .plain (by decide) (by decide)⟩
  obtain ⟨hawait, hb₁⟩ := @wordIf_spelling f.isAsync _ hwords.2.1 _ _ _ h hb
  obtain ⟨htry, hb₂⟩ := @wordIf_spelling f.isThrowing _ hwords.1 _ _ _ hawait hb₁
  have hspace : isWordChar ' ' = false := by decide
  exact (htry.space hb₂).word hwords.2.2 hspace

/-- What is passed in a call, behind the parenthesis that opens. -/
theorem called_spelling {f : Function} (wildcardLabels : Bool)
    (hq : ∀ q ∈ f.parameters.zip (localNames f), SpelledParameter q) :
    Spelling ('(' :: passedText wildcardLabels f)
      (.mark .leftParen '(' :: passedElements wildcardLabels (f.parameters.zip (localNames f))) [] := by
  have hpassed := passed_spelling wildcardLabels hq
  rw [← joinTexts_zipWith] at hpassed
  exact hpassed.mark (show TokenKind.mark? .leftParen = some '(' from rfl) nofun

theorem call_spelling {target : Target} {f : Function} {res : List Element} (wildcardLabels : Bool)
    (hn : Name f.name.toList) (hr : Stem (target.receiverFor (localNames f)).toList res)
    (hq : ∀ q ∈ f.parameters.zip (localNames f), SpelledParameter q) :
    Spelling ("return " ++ call target wildcardLabels f).toList (callElements wildcardLabels f res) [] := by
  have hparen : isWordChar '(' = false := by decide
  have hcall := hr.member hn (called_spelling wildcardLabels hq) hparen
  rw [call_text]
  exact lead_spelling f hcall (begins_before hr.begins _)

theorem call_body {target : Target} {f : Function} {res : List Element} (wildcardLabels : Bool)
    (hn : Name f.name.toList) (hr : Receiver (target.receiverFor (localNames f)).toList res)
    (hq : ∀ q ∈ f.parameters.zip (localNames f), SpelledParameter q) :
    Body ("return " ++ call target wildcardLabels f).toList (callElements wildcardLabels f res) := by
  refine ⟨call_spelling wildcardLabels hn hr.stem hq, ⟨_, rfl⟩, ?_⟩
  have hfront : nests [] (bareTokens [.word "return".toList, .space]) = true := rfl
  have hback : nests [] (bareTokens (.mark .dot '.' :: .word f.name.toList :: .mark .leftParen '(' ::
      passedElements wildcardLabels (f.parameters.zip (localNames f)))) = true :=
    passed_nests wildcardLabels (f.parameters.zip (localNames f))
  have := nests_append hfront (nests_append (wordIf_nests f.isThrowing "try")
    (nests_append (wordIf_nests f.isAsync "await") (nests_append hr.nests hback)))
  rwa [← bareTokens_append, ← bareTokens_append, ← bareTokens_append, ← bareTokens_append] at this

/-! ### Clauses of parameters -/

/-- The text of parameters between parentheses. -/
def declaredText (qs : List (Parameter × String)) : List Char :=
  joinWith ", ".toList (qs.map fun q => (parameterDeclaration q.1 q.2).toList)

theorem declaredText_cons (q : Parameter × String) (qs : List (Parameter × String)) :
    declaredText (q :: qs) = (parameterDeclaration q.1 q.2).toList ++ otherText qs := by
  rw [declaredText, List.map_cons, joinWith_cons, List.flatMap_map]
  rfl

/-- The elements of parameters. -/
inductive ClauseElements : List (Parameter × String) → List Element → Prop
  | nil : ClauseElements [] []
  | cons {q : Parameter × String} {qs : List (Parameter × String)} {tes es : List Element}
    (ht : TypeSpelling [] q.1.type tes []) (h : OtherParameters qs es) :
    ClauseElements (q :: qs) (parameterElements q.1 q.2 ++ (tes ++ es))

/-- The elements of parameters, up to a comment. -/
inductive StuckClause : List Element → Prop
  | first {q : Parameter × String} {tes : List Element} {tail : List Char} (ht : TypeSpelling [] q.1.type tes tail) :
    StuckClause (parameterElements q.1 q.2 ++ tes)
  | other {q : Parameter × String} {tes es : List Element} (ht : TypeSpelling [] q.1.type tes [])
    (h : StuckParameters es) : StuckClause (parameterElements q.1 q.2 ++ (tes ++ es))

theorem parameter_rises (p : Parameter) (name : String) : Rises (bareTokens (parameterElements p name)) := by
  unfold parameterElements
  split <;> exact ⟨0, rfl⟩

/-- Parameters are spelled to their ends where their types are. -/
theorem clause_spelled {qs : List (Parameter × String)} (h : ∀ q ∈ qs, SpelledParameter q)
    (ht : ∀ q ∈ qs, ∃ tes, TypeSpelling [] q.1.type tes []) :
    ∃ es, ClauseElements qs es ∧ Rises (bareTokens es) ∧ ∀ {rest tail : List Char} {fs : List Element},
      Spelling rest fs tail → Separated rest → Spelling (declaredText qs ++ rest) (es ++ fs) tail := by
  cases qs with
  | nil => exact ⟨[], .nil, ⟨0, rfl⟩, fun hr _ => hr⟩
  | cons q qs =>
    have hq := h q List.mem_cons_self
    obtain ⟨tes, htes⟩ := ht q List.mem_cons_self
    obtain ⟨es, hes, hrise, hsp⟩ :=
      other_spelled (fun r hr => h r (List.mem_cons_of_mem _ hr)) fun r hr => ht r (List.mem_cons_of_mem _ hr)
    refine ⟨_, .cons htes hes, rises_append (parameter_rises q.1 q.2) (rises_append htes.rises hrise),
      fun {rest tail fs} hr hs => ?_⟩
    rw [declaredText_cons, List.append_assoc, List.append_assoc, List.append_assoc]
    exact parameter_spelling hq.label hq.name (htes.append (hsp hr hs) (separated_other hs)) (type_begins hq.type _)

/-- Parameters are spelled up to a comment where a type holds one. -/
theorem clause_swallowed {qs : List (Parameter × String)} (h : ∀ q ∈ qs, SpelledParameter q)
    (ht : ¬∀ q ∈ qs, ∃ tes, TypeSpelling [] q.1.type tes []) :
    ∃ es, StuckClause es ∧ Rises (bareTokens es) ∧ ∀ {rest : List Char}, '\n' ∉ rest → Separated rest →
      ∃ tail, Spelling (declaredText qs ++ rest) es tail := by
  cases qs with
  | nil => exact absurd (List.forall_mem_nil _) ht
  | cons q qs =>
    have hq := h q List.mem_cons_self
    have hqs : ∀ r ∈ qs, SpelledParameter r := fun r hr => h r (List.mem_cons_of_mem _ hr)
    have hfront := parameter_rises q.1 q.2
    by_cases hfirst : ∃ tes, TypeSpelling [] q.1.type tes []
    · obtain ⟨tes, htes⟩ := hfirst
      obtain ⟨es, hes, hrise, hsp⟩ := other_swallowed hqs fun hx => ht (List.forall_mem_cons.2 ⟨⟨tes, htes⟩, hx⟩)
      refine ⟨_, .other htes hes, rises_append hfront (rises_append htes.rises hrise), fun {rest} hl hs => ?_⟩
      obtain ⟨tail, hsp⟩ := hsp hl hs
      refine ⟨tail, ?_⟩
      rw [declaredText_cons, List.append_assoc]
      exact parameter_spelling hq.label hq.name (htes.append hsp (separated_other hs)) (type_begins hq.type _)
    · obtain ⟨tes, tail, htes⟩ := hq.type
      have htail : tail ≠ [] := by
        rintro rfl
        exact hfirst ⟨tes, htes⟩
      refine ⟨_, .first htes, rises_append hfront htes.rises, fun {rest} hl hs => ⟨tail ++ (otherText qs ++ rest), ?_⟩⟩
      rw [declaredText_cons, List.append_assoc]
      refine parameter_spelling hq.label hq.name (htes.swallow htail (separated_other hs) ?_) (type_begins hq.type _)
      rw [List.mem_append, not_or]
      exact ⟨otherText_line hqs, hl⟩

/-- Parameters are spelled as a whole, or up to a comment. -/
theorem clause_spelling {qs : List (Parameter × String)} (h : ∀ q ∈ qs, SpelledParameter q) :
    (∃ es, ClauseElements qs es ∧ Rises (bareTokens es) ∧ ∀ {rest tail : List Char} {fs : List Element},
        Spelling rest fs tail → Separated rest → Spelling (declaredText qs ++ rest) (es ++ fs) tail) ∨
      ∃ es, StuckClause es ∧ Rises (bareTokens es) ∧ ∀ {rest : List Char}, '\n' ∉ rest → Separated rest →
        ∃ tail, Spelling (declaredText qs ++ rest) es tail :=
  (em (∀ q ∈ qs, ∃ tes, TypeSpelling [] q.1.type tes [])).imp (clause_spelled h) (clause_swallowed h)

/-- Parameters are read as expected. -/
theorem clause_reads {qs : List (Parameter × String)} {es fs : List Element} (hes : ClauseElements qs es) {opener : Token}
    (ho : opener.kind = .leftParen) {ts : List Token} (h : Reads false (es ++ .mark .rightParen ')' :: fs) ts) :
    ∃ left, Reads false fs left ∧
      parameterClause.run (opener :: ts) = .ok (qs.map fun q => forwardedParameter q.1 q.2, left) := by
  cases hes with
  | nil =>
    obtain ⟨closer, left, rfl, hc, h⟩ := reads_lexeme h
    refine ⟨left, h, ?_⟩
    have hclosed : parameterUnlessClosed.run (closer :: left) = .ok (none, closer :: left) := by
      have hlook : ((look fun ts => ts.head?.any (·.kind == .rightParen)) : Swift.Reader Bool).run (closer :: left) =
          .ok (true, closer :: left) := by
        simp [look, hc.kind]
      unfold parameterUnlessClosed
      rw [run_bind_eq_ok]
      exact ⟨true, _, hlook, rfl⟩
    unfold parameterClause
    rw [run_bind_eq_ok]
    refine ⟨opener, _, token_eq_ok.2 ⟨rfl, ho⟩, run_bind_eq_ok.2 ⟨none, _, hclosed, run_bind_eq_ok.2 ⟨[], closer :: left, ?_, ?_⟩⟩⟩
    · exact whileNext_skip (by simp [hc.kind])
    · rw [run_bind_eq_ok]
      exact ⟨closer, left, token_eq_ok.2 ⟨rfl, hc.kind⟩, rfl⟩
  | @cons q qs tes es ht hother =>
    rw [List.append_assoc, List.append_assoc] at h
    obtain ⟨first, more, vs, rfl, -, hv, hp⟩ := parameter_clean ht h
    obtain ⟨v, vs', hk, rfl, closer, left, hcl, hleft, hw⟩ := other_reads hother hv
    refine ⟨left, hleft, ?_⟩
    have hfirst := hp (by rcases hk with hk | hk <;> simp [hk])
    unfold parameterClause
    rw [run_bind_eq_ok]
    refine ⟨opener, _, token_eq_ok.2 ⟨rfl, ho⟩, run_bind_eq_ok.2 ⟨_, _, hfirst, run_bind_eq_ok.2 ⟨_, _, hw, ?_⟩⟩⟩
    rw [run_bind_eq_ok]
    refine ⟨closer, left, token_eq_ok.2 ⟨rfl, hcl⟩, run_pure_eq_ok.2 ⟨?_, rfl⟩⟩
    simp [List.filterMap_map]

/-- Parameters with a comment in a type are not closed. -/
theorem clause_stuck {es body fs : List Element} {text line margin margin' : List Char} (hs : StuckClause es)
    (hb : Body text body) (hr : Rises (bareTokens (insideElements margin margin' body ++ fs))) {opener : Token}
    {ts left : List Token} (h : Reads false (es ++ (commented line ++ (insideElements margin margin' body ++ fs))) ts)
    (ps : List Swift.Parameter) : parameterClause.run (opener :: ts) ≠ .ok (ps, left) := by
  intro hrun
  obtain ⟨opener', inside, first, after, others, closer, he, hf, hw, hk, -⟩ := parameterClause_cases hrun
  obtain ⟨rfl, rfl⟩ := List.cons.inj he
  cases hs with
  | @first q tes tail ht =>
    rw [List.append_assoc] at h
    have hno := parameter_stuck ht hb hr h hf
    rw [whileNext_skip] at hw
    · cases hw
      simp [hk] at hno
    · cases after with
      | nil => rfl
      | cons v vs =>
        simp only [List.head?_cons, Option.any_some, Bool.or_eq_false_iff] at hno ⊢
        exact hno.1
  | @other q tes es ht hother =>
    rw [List.append_assoc, List.append_assoc] at h
    obtain ⟨head, more, vs, rfl, -, hv, hp⟩ := parameter_clean ht h
    obtain ⟨v, vs', hvk, rfl, hleft⟩ := @other_stuck _ _ _ _ _ _ _ hother hb hr _ (closer :: left) hv
    rw [hp (by simp [hvk])] at hf
    cases hf
    have hno := hleft hw
    simp [hk] at hno

/-! ### Effects -/

/-- The effects of a forwarding function. -/
def effectsOf (f : Function) : List Effect :=
  (if f.isAsync then [.async] else []) ++ (if f.isThrowing then [.throws] else [])

def effectElements (ws : List Effect) : List Element :=
  ws.flatMap fun e => [.space, .word e.text.toList]

theorem effect_name (e : Effect) : Name e.text.toList := by
  cases e <;> exact .plain (by decide) (by decide)

theorem effects_text (f : Function) :
    ((if f.isAsync then " async" else "") ++ (if f.isThrowing then " throws" else "")).toList =
      (effectsOf f).flatMap fun e => ' ' :: e.text.toList := by
  unfold effectsOf
  cases f.isAsync <;> cases f.isThrowing <;> rfl

theorem effects_spelling (ws : List Effect) {text tail : List Char} {es : List Element} (h : Spelling text es tail)
    (ht : text.head?.all (· == ' ') = true) :
    Spelling ((ws.flatMap fun e => ' ' :: e.text.toList) ++ text) (effectElements ws ++ es) tail ∧
      ((ws.flatMap fun e => ' ' :: e.text.toList) ++ text).head?.all (· == ' ') = true := by
  induction ws with
  | nil => exact ⟨h, ht⟩
  | cons e ws ih =>
    have hnext : ((ws.flatMap fun e => ' ' :: e.text.toList) ++ text).head?.any isWordChar = false := by
      have hspace : isWordChar ' ' = false := by decide
      cases hx : ((ws.flatMap fun e => ' ' :: e.text.toList) ++ text).head? with
      | none => rfl
      | some c =>
        have hc := ih.2
        rw [hx, Option.all_some, beq_iff_eq] at hc
        rw [Option.any_some, hc, hspace]
    have hword := ih.1.word (effect_name e) hnext
    have := hword.space (by
      obtain ⟨c, cs, hc, -, -, -, hb⟩ := name_begins (effect_name e)
      rw [hc, List.cons_append, List.head?_cons, Option.any_some, hb]
      rfl)
    exact ⟨by simpa [effectElements] using this, rfl⟩

theorem effects_rise (ws : List Effect) : Rises (bareTokens (effectElements ws)) := by
  induction ws with
  | nil => exact ⟨0, rfl⟩
  | cons e ws ih =>
    have hword : Rises (bareTokens [.space, .word e.text.toList]) := ⟨0, rfl⟩
    exact rises_append hword ih

theorem effectOf_text {t : Token} {e : Effect} (hk : t.kind = .identifier) (ht : t.text = e.text) :
    effectOf? t = some e := by
  rw [effectOf?, if_pos hk, ht]
  cases e <;> decide

/-- Effects are read up to something that is none. -/
theorem effects_read {ws : List Effect} {es : List Element} {ts : List Token} (h : Reads false (effectElements ws ++ es) ts)
    (hes : ∀ {left : List Token}, Reads false es left →
      left.head?.any (fun v => (effectOf? v).isSome || v.kind == .leftParen) = false) :
    ∃ left, Reads false es left ∧ effects.run ts = .ok (ws, left) := by
  have hloop : ∃ left, Reads false es left ∧ ts.head?.any (·.kind == .leftParen) = false ∧
      (whileNext (fun t => (effectOf? t).isSome) fun t => do
        let _ ← optionally (·.kind == .leftParen) (group .rightParen)
        pure (effectOf? t)).run ts = .ok (ws.map some, left) := by
    induction ws generalizing ts with
    | nil =>
      have hno := hes h
      refine ⟨ts, h, ?_, whileNext_skip ?_⟩
      all_goals
        cases ts with
        | nil => rfl
        | cons t ts =>
          simp only [List.head?_cons, Option.any_some, Bool.or_eq_false_iff] at hno ⊢
          first
          | exact hno.1
          | exact hno.2
    | cons e ws ih =>
      have h' : Reads false (.space :: .word e.text.toList :: (effectElements ws ++ es)) ts := by
        simpa [effectElements] using h
      obtain ⟨t, more, rfl, ht, h⟩ := reads_spaced h'
      obtain ⟨left, hleft, hparen, hw⟩ := ih h
      have heffect : effectOf? t = some e := effectOf_text ht.kind (by rw [ht.text, String.ofList_toList])
      refine ⟨left, hleft, by simp [ht.kind], ?_⟩
      simp only [whileNext] at hw ⊢
      have hbody : (do
          let _ ← optionally (·.kind == .leftParen) (group .rightParen)
          pure (effectOf? t) : Swift.Reader (Option Effect)).run more = .ok (some e, more) := by
        rw [run_bind_eq_ok]
        exact ⟨none, more, optionally_skip hparen, by rw [heffect]; rfl⟩
      rw [whileNextRun, if_pos (by simp [heffect])]
      split
      · next he =>
        rw [hbody] at he
        cases he
        rw [hw]
        rfl
      · next he =>
        rw [hbody] at he
        cases he
  obtain ⟨left, hleft, -, hw⟩ := hloop
  refine ⟨left, hleft, ?_⟩
  unfold effects
  rw [run_bind_eq_ok]
  exact ⟨ws.map some, left, hw, run_pure_eq_ok.2 ⟨by simp [List.filterMap_map], rfl⟩⟩

/-! ### Reading functions -/

/-- What is read of a function behind its parameters. -/
def functionTail (name : String) (parameters : List Swift.Parameter) : Swift.Reader Signature := do
  let effects ← effects
  let returnType ← optionally (·.kind == .arrow) fun _ => typeText ["where"]
  let _ ← functionRequirements
  let body ← optionally (·.kind == .leftBrace) (group .rightBrace)
  pure ⟨name, false, none, parameters, effects, returnType, body.isSome⟩

theorem function_front {name opener : Token} (hn : name.kind = .identifier) (ho : opener.kind = .leftParen)
    (rest : List Token) :
    function.run (name :: opener :: rest) =
      (do functionTail name.text (← parameterClause)).run (opener :: rest) := by
  have hgeneric : genericClause.run (opener :: rest) = .ok (none, opener :: rest) := optionally_skip (by simp [ho])
  unfold function
  rw [run_bind_of (functionName_word hn _)]
  dsimp only
  rw [run_bind_of hgeneric]
  rfl

/-- The elements of a function up to its parameters. -/
def nameAndOpener (name : String) : List Element :=
  [.space, .word name.toList, .mark .leftParen '(']

theorem function_opens {name : String} {es : List Element} {ts : List Token}
    (h : Reads false (nameAndOpener name ++ es) ts) :
    ∃ opener rest, opener.kind = .leftParen ∧ Reads false es rest ∧
      function.run ts = (do functionTail name (← parameterClause)).run (opener :: rest) := by
  obtain ⟨t, more, rfl, ht, h⟩ := reads_spaced h
  obtain ⟨opener, rest, rfl, ho, h⟩ := reads_lexeme h
  refine ⟨opener, rest, ho.kind, h, ?_⟩
  rw [function_front ht.kind ho.kind, ht.text, String.ofList_toList]

/-- The elements of the return type of a function, with the arrow before it. -/
inductive ReturnElements : String → List Element → Prop
  | none : ReturnElements "" []
  | some {type : String} {tes : List Element} (ht : TypeSpelling ["where"] type tes []) :
    ReturnElements type (.space :: ⟨.lexeme .arrow, ['-', '>']⟩ :: .space :: tes)

theorem notEmpty_of_type {stops : List String} {type : String} {es : List Element} {tail : List Char}
    (ht : TypeSpelling stops type es tail) : type.isEmpty = false := by
  have hbegins := ht.begins
  cases h : type.toList with
  | nil =>
    rw [h] at hbegins
    cases hbegins
  | cons => exact isEmpty_of_cons h

/-- Effects and a return type without comments are read up to a brace or to the end. -/
theorem result_reads {ws : List Effect} {type : String} {res fs : List Element} (hr : ReturnElements type res)
    (hfs : ∀ {left : List Token}, Reads false fs left → left.head?.all (·.kind == .leftBrace) = true)
    {ts : List Token} (h : Reads false (effectElements ws ++ (res ++ fs)) ts) :
    ∃ after left, Reads false fs left ∧ effects.run ts = .ok (ws, after) ∧
      ((optionally (·.kind == .arrow) fun _ => typeText ["where"]) : Swift.Reader (Option String)).run after =
        .ok (if type.isEmpty then none else some type, left) ∧
      functionRequirements.run left = .ok (none, left) := by
  have hskip {p : Token → Bool} (hp : ∀ v : Token, v.kind = .leftBrace → p v = false) {left : List Token}
      (hx : Reads false fs left) : left.head?.any p = false := by
    have hbrace := hfs hx
    cases left with
    | nil => rfl
    | cons v vs =>
      rw [List.head?_cons, Option.all_some, beq_iff_eq] at hbrace
      exact hp v hbrace
  obtain ⟨after, hafter, heffects⟩ := effects_read h fun {left} hx => by
    cases hr with
    | none => exact hskip (fun v hv => by simp [effectOf?, hv]) hx
    | some ht =>
      obtain ⟨t, more, rfl, ht, -⟩ := reads_spaced hx
      simp [effectOf?, ht.kind]
  have hreturn : ∃ left, Reads false fs left ∧
      ((optionally (·.kind == .arrow) fun _ => typeText ["where"]) : Swift.Reader (Option String)).run after =
        .ok (if type.isEmpty then none else some type, left) := by
    cases hr with
    | none => exact ⟨after, hafter, optionally_skip (hskip (fun v hv => by simp [hv]) hafter)⟩
    | @some type tes ht =>
      obtain ⟨arrow, more, rfl, harrow, hmore⟩ := reads_spaced hafter
      obtain ⟨left, hleft, htype⟩ := reads_type ht (reads_space hmore)
      refine ⟨left, hleft, ?_⟩
      rw [notEmpty_of_type ht, if_neg Bool.false_ne_true]
      refine optionally_take (by simp [harrow.kind]) (htype ?_)
      have hbrace := hfs hleft
      cases left with
      | nil => rfl
      | cons v vs =>
        rw [List.head?_cons, Option.all_some, beq_iff_eq] at hbrace
        simp [Token.endsType, hbrace]
  obtain ⟨left, hleft, hreturn⟩ := hreturn
  have hrequirements : functionRequirements.run left = .ok (none, left) :=
    optionally_skip (hskip (fun v hv => by simp [Token.isIdentifier, hv]) hleft)
  exact ⟨after, left, hleft, heffects, hreturn, hrequirements⟩

/-- A function that holds no comments, behind its parameters. -/
theorem tail_reads {ws : List Effect} {name type : String} {ps : List Swift.Parameter} {res body fs : List Element}
    {margin margin' : List Char} (hr : ReturnElements type res) (hb : NoBraces (bareTokens body))
    {ts : List Token} (h : Reads false (effectElements ws ++ (res ++ .space :: .mark .leftBrace '\x7b' ::
      (insideElements margin margin' body ++ fs))) ts) :
    ∃ vs, Reads false fs vs ∧ (functionTail name ps).run ts =
      .ok (⟨name, false, none, ps, ws, if type.isEmpty then none else some type, true⟩, vs) := by
  obtain ⟨after, left, hleft, heffects, hreturn, hrequirements⟩ := result_reads hr (fun {left} hx => by
    obtain ⟨opener, rest, rfl, ho, -⟩ := reads_spaced hx
    simp [ho.kind]) h
  obtain ⟨opener, rest, rfl, ho, hrest⟩ := reads_spaced hleft
  obtain ⟨inside, closer, vs, rfl, -, hi, hc, hvs⟩ := inside_reads hrest hb
  refine ⟨vs, hvs, ?_⟩
  unfold functionTail
  rw [run_bind_eq_ok]
  refine ⟨_, _, heffects, run_bind_eq_ok.2 ⟨_, _, hreturn, run_bind_eq_ok.2 ⟨_, _, hrequirements, ?_⟩⟩⟩
  rw [run_bind_eq_ok]
  exact ⟨_, _, optionally_take (by simp [ho.kind]) (group_reads ho.kind hi hc), rfl⟩

/-- What is read of a function behind its return type. -/
def functionRest : Swift.Reader Unit := do
  let _ ← functionRequirements
  let _ ← optionally (·.kind == .leftBrace) (group .rightBrace)
  pure ()

theorem functionRest_stop {t : Token} (h : t.kind = .rightBrace ∨ t.kind = .identifier ∧ t.text = "return")
    (ts : List Token) : functionRest.run (t :: ts) = .ok ((), t :: ts) := by
  have hwhere : functionRequirements.run (t :: ts) = .ok (none, t :: ts) :=
    optionally_skip (by rcases h with h | ⟨-, h⟩ <;> simp [Token.isIdentifier, h])
  rw [functionRest, run_bind_of hwhere, run_bind_of (optionally_skip ?_)]
  · rfl
  · rcases h with h | ⟨h, -⟩ <;> simp [h]

/-- Requirements are skipped up to a brace. -/
theorem functionRest_where {t closer : Token} {back : List Token} (ht : t.isIdentifier "where" = true)
    (hback : NoBraces back) (hc : closer.kind = .rightBrace) (vs : List Token) :
    functionRest.run (t :: back ++ closer :: vs) = .ok ((), closer :: vs) := by
  have hskip : (skipWhile (ε := Fault) fun t : Token => t.kind != .leftBrace && t.kind != .rightBrace).run
      (back ++ closer :: vs) = .ok ((), closer :: vs) := by
    have hall : ∀ u ∈ back, (u.kind != .leftBrace && u.kind != .rightBrace) = true := by
      intro u hu
      simpa using hback u hu
    simp only [skipWhile, List.dropWhile_append_of_pos hall, List.dropWhile_cons, hc]
    rfl
  have hwhere : functionRequirements.run (t :: back ++ closer :: vs) = .ok (some (), closer :: vs) :=
    optionally_take ht hskip
  rw [functionRest, run_bind_of hwhere, run_bind_of (optionally_skip (by simp [hc]))]
  rfl

/-- The rest of a function is read behind what is taken for its return type. -/
theorem functionTail_cases {ws : List Effect} {name : String} {ps : List Swift.Parameter} {arrow : Token}
    {ts more left : List Token} (heffects : effects.run ts = .ok (ws, arrow :: more)) (harrow : arrow.kind = .arrow)
    {signature : Signature} (h : (functionTail name ps).run ts = .ok (signature, left)) :
    functionRest.run (splitType ["where"] 0 none more).2 = .ok ((), left) := by
  rw [functionTail, run_bind_of heffects] at h
  obtain ⟨returnType, after, htype, h⟩ := run_bind_eq_ok.1 h
  obtain ⟨requirements, after', hrequired, h⟩ := run_bind_eq_ok.1 h
  obtain ⟨block, left', hblock, h⟩ := run_bind_eq_ok.1 h
  obtain ⟨-, rfl⟩ := run_pure_eq_ok.1 h
  rcases optionally_cases htype with ⟨hx, -⟩ | ⟨t, rest, found, he, -, htext, -⟩
  · simp [harrow] at hx
  cases he
  obtain ⟨head, taken, hsplit, -⟩ := phraseBy_eq_ok.1 htext
  rw [hsplit]
  exact run_bind_eq_ok.2 ⟨_, _, hrequired, run_bind_eq_ok.2 ⟨_, _, hblock, rfl⟩⟩

/-- A comment in the return type swallows the brace of the body. -/
theorem tail_stuck {ws : List Effect} {name type : String} {ps : List Swift.Parameter} {tes body fs : List Element}
    {tail line margin margin' text : List Char} (ht : TypeSpelling ["where"] type tes tail) (hb : Body text body)
    (hr : Rises (bareTokens (insideElements margin margin' body ++ fs))) {ts left : List Token}
    (h : Reads false (effectElements ws ++ .space :: ⟨.lexeme .arrow, ['-', '>']⟩ :: .space ::
      (tes ++ (commented line ++ (insideElements margin margin' body ++ fs)))) ts)
    {signature : Signature} (hrun : (functionTail name ps).run ts = .ok (signature, left)) : Stuck fs left := by
  obtain ⟨after, hafter, heffects⟩ := effects_read h fun {left} hx => by
    obtain ⟨t, more, rfl, ht, -⟩ := reads_spaced hx
    simp [effectOf?, ht.kind]
  obtain ⟨arrow, more, rfl, harrow, hmore⟩ := reads_spaced hafter
  have hrest := functionTail_cases heffects harrow.kind hrun
  have hover := overrun_of_comment (by decide) ht hb hr (reads_space hmore)
  generalize (splitType ["where"] 0 none more).2 = rest at hover hrest
  cases hover with
  | all => exact .inl (List.suffix_nil.1 (Reader.suffix _ hrest))
  | body hk hreturn =>
    rw [functionRest_stop (.inr ⟨hk, hreturn⟩)] at hrest
    cases hrest
    exact .inr ⟨_, _, rfl, .inr ⟨hk, by simp [hreturn]⟩⟩
  | brace hk hv =>
    rw [functionRest_stop (.inl hk)] at hrest
    cases hrest
    exact .inr ⟨_, _, rfl, .inl ⟨hk, hv⟩⟩
  | stop hstop hback hk hv =>
    rw [functionRest_where (by simpa [Token.isOneOf, Token.isIdentifier] using hstop) hback hk] at hrest
    cases hrest
    exact .inr ⟨_, _, rfl, .inl ⟨hk, hv⟩⟩

/-! ### Functions -/

/-- The modifier of a forwarding function. -/
def functionModifier (isStatic : Bool) (f : Function) : Option String :=
  if isStatic then some "static" else if f.modifiers.contains "mutating" then some "mutating" else none

/-- The declaration that a forwarding function is, wherever it stands. -/
def forwardedFunction (isStatic : Bool) (f : Function) (position : Position) : Decl :=
  .function ⟨[], headModifiers (functionModifier isStatic f), position⟩
    { name := f.name
      isOperator := false
      generics := none
      parameters := (f.parameters.zip (localNames f)).map fun q => forwardedParameter q.1 q.2
      effects := effectsOf f
      returnType := if f.returnType.isEmpty then none else some f.returnType
      hasBody := true }

/-- The text of a return type, and of the brace of the body. -/
def returnText (type : String) : List Char :=
  (if type.isEmpty then "" else " -> " ++ type).toList ++ [' ', '\x7b']

theorem returnText_head (type : String) : (returnText type).head? = some ' ' := by
  unfold returnText
  cases type.isEmpty with
  | true => rfl
  | false =>
    rw [if_neg Bool.false_ne_true, String.toList_append]
    rfl

theorem brace_spelling : Spelling [' ', '\x7b'] [.space, .mark .leftBrace '\x7b'] [] :=
  (spelling_nil.mark rfl (by decide)).space (by decide)

theorem arrow_spelling {type : String} {rest tail : List Char} {es : List Element} (ht : type.isEmpty = false)
    (h : Spelling (type.toList ++ rest) es tail) (hb : (type.toList ++ rest).head?.any (!isBlank ·) = true) :
    Spelling ((if type.isEmpty then "" else " -> " ++ type).toList ++ rest)
      (.space :: ⟨.lexeme .arrow, ['-', '>']⟩ :: .space :: es) tail := by
  have hdash : isBlank '-' = false := by decide
  have := (h.space hb).arrow.space (by simp [hdash])
  simpa [ht] using this

/-- A return type is spelled as a whole, or up to a comment. -/
theorem return_spelling {type : String} (h : type.isEmpty = true ∨ TypeText ["where"] type) :
    (∃ res, ReturnElements type res ∧ Rises (bareTokens res) ∧
        Spelling (returnText type) (res ++ [.space, .mark .leftBrace '\x7b']) []) ∨
      ∃ tes tail line, TypeSpelling ["where"] type tes tail ∧
        Spelling (returnText type) (.space :: ⟨.lexeme .arrow, ['-', '>']⟩ :: .space :: tes) line := by
  rcases h with h | ⟨tes, tail, ht⟩
  · obtain rfl := String.isEmpty_iff.1 h
    exact .inl ⟨[], .none, ⟨0, rfl⟩, brace_spelling⟩
  · have hne := notEmpty_of_type ht
    have hbegins := begins_before ht.begins [' ', '\x7b']
    by_cases htail : tail = []
    · subst htail
      have hrise : Rises (bareTokens [.space, ⟨.lexeme .arrow, ['-', '>']⟩, .space]) := ⟨0, rfl⟩
      exact .inl ⟨_, .some ht, rises_append hrise ht.rises, arrow_spelling hne (ht.append brace_spelling rfl) hbegins⟩
    · have hs := ht.swallow htail (show Separated [' ', '\x7b'] from rfl) (by decide)
      exact .inr ⟨tes, tail, tail ++ [' ', '\x7b'], ht, arrow_spelling hne hs hbegins⟩

/-- What stands behind the parameters of a function, through the brace of its body. -/
def clauseRest (f : Function) : List Char :=
  ')' :: (((effectsOf f).flatMap fun e => ' ' :: e.text.toList) ++ returnText f.returnType)

theorem clauseRest_spelling {f : Function} {es : List Element} {tail : List Char}
    (h : Spelling (returnText f.returnType) es tail) :
    Spelling (clauseRest f) (.mark .rightParen ')' :: (effectElements (effectsOf f) ++ es)) tail :=
  (effects_spelling (effectsOf f) h (by rw [returnText_head]; rfl)).1.mark rfl fun hx => absurd hx (by decide)

/-- From the parenthesis on the line may end in a comment of the type of the result. -/
theorem clauseRest_spelled {f : Function} (ht : f.returnType.isEmpty = true ∨ TypeText ["where"] f.returnType) :
    ∃ es tail, Spelling (clauseRest f) es tail := by
  rcases return_spelling ht with ⟨es, -, -, h⟩ | ⟨es, -, tail, -, h⟩
  · exact ⟨_, _, clauseRest_spelling h⟩
  · exact ⟨_, _, clauseRest_spelling h⟩

theorem clauseRest_separated (f : Function) : Separated (clauseRest f) := rfl

theorem signature_text (target : Target) (f : Function) :
    (signature target f ++ " \x7b").toList = headText (functionModifier target.isStatic f) "func" ++ ' ' ::
      (f.name.toList ++ '(' :: (declaredText (f.parameters.zip (localNames f)) ++ clauseRest f)) := by
  rw [clauseRest, ← effects_text, declaredText, ← joinTexts_zipWith, returnText]
  have hhead : (target.qualifier ++ (if !target.isStatic && f.modifiers.contains "mutating" then "mutating " else "") ++
      "func ").toList = headText (functionModifier target.isStatic f) "func" ++ [' '] := by
    unfold Target.qualifier functionModifier
    cases target.isStatic <;> cases f.modifiers.contains "mutating" <;> rfl
  simp only [signature, String.toList_append] at hhead ⊢
  simp only [hhead, List.append_assoc]
  rfl

theorem inside_rises {margin margin' : List Char} {body : List Element} (hb : Rises (bareTokens body)) :
    Rises (bareTokens (insideElements margin margin' body)) := by
  have hm : Rises (bareTokens [.lineBreak margin]) := ⟨0, rfl⟩
  have hc : Rises (bareTokens [.lineBreak margin', .mark .rightBrace '\x7d']) := ⟨0, rfl⟩
  have := rises_append hm (rises_append hb hc)
  exact this

theorem modifier_cases (isStatic : Bool) (f : Function) : functionModifier isStatic f = none ∨
    functionModifier isStatic f = some "static" ∨ functionModifier isStatic f = some "mutating" := by
  unfold functionModifier
  split
  · exact .inr (.inl rfl)
  · split
    · exact .inr (.inr rfl)
    · exact .inl rfl

theorem inside_lines {write : Line → List Char} (hw : Indents write) {text : String} {body : List Element}
    (hb : Body text.toList body) :
    ∃ margin margin', Page ([⟨1, text⟩, ⟨0, "\x7d"⟩].map write) (insideElements margin margin' body) := by
  obtain ⟨margin, hm, hx⟩ := hw ⟨1, text⟩
  obtain ⟨margin', hm', hx'⟩ := hw ⟨0, "\x7d"⟩
  have hbegins : text.toList.head?.any (!isBlank ·) = true := by
    obtain ⟨more, rfl⟩ := hb.starts
    rw [← hb.spelling.flatten]
    rfl
  refine ⟨margin, margin', ?_⟩
  simp only [List.map_cons, List.map_nil, hx, hx']
  exact inside_page hm hm' hbegins hb.spelling

theorem opener_spelling {name : String} (hn : Name name.toList) {text tail : List Char} {es : List Element}
    (h : Spelling text es tail) :
    Spelling (' ' :: (name.toList ++ '(' :: text)) (nameAndOpener name ++ es) tail := by
  have hparen : isWordChar '(' = false := by decide
  have hdot : '(' = '.' → text.head? ≠ some '.' := fun hx => absurd hx (by decide)
  refine ((h.mark (show TokenKind.mark? .leftParen = some '(' from rfl) hdot).word hn hparen).space ?_
  obtain ⟨c, cs, hc, -, -, -, hb⟩ := name_begins hn
  rw [hc, List.cons_append, List.head?_cons, Option.any_some, hb]
  rfl

theorem opener_rises (name : String) : Rises (bareTokens (nameAndOpener name)) := ⟨1, rfl⟩

theorem clause_rises (name : String) {es : List Element} (h : Rises (bareTokens es)) :
    Rises (bareTokens (nameAndOpener name ++ (es ++ [.mark .rightParen ')']))) := by
  obtain ⟨d, hd⟩ := h
  refine ⟨d, ?_⟩
  have hopen : rise 0 (bareTokens (nameAndOpener name)) = some 1 := rfl
  have hinside := rise_add hd 1
  rw [Nat.zero_add] at hinside
  rw [bareTokens_append, bareTokens_append, rise_append, hopen, Option.bind_some, rise_append, hinside, Option.bind_some]
  rfl

/-- A function is read by its clause and what follows the clause. -/
theorem function_reads {modifier : Option String}
    (hm : modifier = none ∨ modifier = some "static" ∨ modifier = some "mutating") {broken : Bool} {margin : List Char}
    {name : String} {es rest fs : List Element} {ts : List Token}
    (h : Reads broken (headedElements margin modifier "func" (nameAndOpener name ++ es) rest ++ fs) ts) :
    ∃ t more opener after, ts = t :: more ∧ t.kind = .identifier ∧ opener.kind = .leftParen ∧
      Reads false (es ++ (rest ++ fs)) after ∧ ∀ {found : Option Decl} {left : List Token},
        declarationRun true t more = .ok (found, left) → ∃ ps behind signature,
          parameterClause.run (opener :: after) = .ok (ps, behind) ∧
            (functionTail name ps).run behind = .ok (signature, left) ∧
              found = some (.function ⟨[], headModifiers modifier, t.position⟩ signature) := by
  obtain ⟨t, more, k, left, rfl, ht, hh, hk, hv, h⟩ := headed_reads hm (.inr rfl) h
  rw [List.append_assoc] at h
  obtain ⟨opener, after, ho, hafter, hrun⟩ := function_opens h
  refine ⟨t, more, opener, after, rfl, ht, ho, hafter, fun {found left} hd => ?_⟩
  obtain ⟨signature, hf, rfl⟩ := function_cases ht hh hk hv hd
  rw [hrun] at hf
  obtain ⟨ps, behind, hp, htail⟩ := run_bind_eq_ok.1 hf
  exact ⟨ps, behind, signature, hp, htail, rfl⟩

section Function

variable {write : Line → List Char} (hw : Indents write) {target : Target} {wildcardLabels : Bool} {f : Function}
  {body ces : List Element} {margin margin' : List Char} (hn : Name f.name.toList)
  (hbody : Body ("return " ++ call target wildcardLabels f).toList body)
  (hpage : Page ((functionLines target wildcardLabels f).tail.map write) (insideElements margin margin' body))
  (hcrise : Rises (bareTokens ces))

include hw hn hbody hpage hcrise

/-- A function is read as expected if all its types are read to their ends. -/
theorem function_expected {tes : List Element} (hces : ClauseElements (f.parameters.zip (localNames f)) ces)
    (htes : ReturnElements f.returnType tes) (htrise : Rises (bareTokens tes))
    (hs : Spelling (declaredText (f.parameters.zip (localNames f)) ++ clauseRest f)
      (ces ++ .mark .rightParen ')' :: (effectElements (effectsOf f) ++ (tes ++ [.space, .mark .leftBrace '\x7b']))) []) :
    ∃ es, Forwarding ((functionLines target wildcardLabels f).map write) (forwardedFunction target.isStatic f) es := by
  have hm := modifier_cases target.isStatic f
  obtain ⟨m, hp⟩ := headed_page hm (.inr rfl) hw (signature_text target f) (opener_spelling hn hs) rfl hpage
  refine ⟨_, hp, ?_, headed_opens hm (.inr rfl) _ _ _, ?_⟩
  · have hbrace : Rises (bareTokens [.space, .mark .leftBrace '\x7b']) := ⟨0, rfl⟩
    have hline := rises_append (clause_rises f.name hcrise)
      (rises_append (effects_rise (effectsOf f)) (rises_append htrise hbrace))
    exact headed_rises m (by simpa using hline) (inside_rises ⟨0, nests_rise hbody.nests⟩)
  · intro fs ts _ _ h
    obtain ⟨t, more, opener, after, rfl, hk, ho, hafter, hcases⟩ := function_reads hm h
    refine ⟨t, more, rfl, hk, fun {found left} hd => .inl ⟨t.position, ?_⟩⟩
    obtain ⟨ps, behind, signature, hps, htail, rfl⟩ := hcases hd
    have hclause : Reads false (ces ++ .mark .rightParen ')' :: (effectElements (effectsOf f) ++ (tes ++ .space ::
        .mark .leftBrace '\x7b' :: (insideElements margin margin' body ++ fs)))) after := by
      simpa [commented] using hafter
    obtain ⟨behind', hbehind, hps'⟩ := clause_reads hces ho hclause
    rw [hps'] at hps
    cases hps
    obtain ⟨vs, hvs, hrun⟩ := @tail_reads _ f.name _ _ _ _ _ _ _ htes (nests_noBraces hbody.nests) _ hbehind
    rw [hrun] at htail
    cases htail
    exact ⟨rfl, hvs⟩

/-- A function whose return type ends in a comment loses the brace of its body to it. -/
theorem function_result_swallowed {tes : List Element} {tail line : List Char}
    (hces : ClauseElements (f.parameters.zip (localNames f)) ces) (htes : TypeSpelling ["where"] f.returnType tes tail)
    (hs : Spelling (declaredText (f.parameters.zip (localNames f)) ++ clauseRest f)
      (ces ++ .mark .rightParen ')' :: (effectElements (effectsOf f) ++
        .space :: ⟨.lexeme .arrow, ['-', '>']⟩ :: .space :: tes)) line) :
    ∃ es, Forwarding ((functionLines target wildcardLabels f).map write) (forwardedFunction target.isStatic f) es := by
  have hm := modifier_cases target.isStatic f
  have hrises := @inside_rises margin margin' _ ⟨0, nests_rise hbody.nests⟩
  obtain ⟨m, hp⟩ := headed_page hm (.inr rfl) hw (signature_text target f) (opener_spelling hn hs) rfl hpage
  refine ⟨_, hp, ?_, headed_opens hm (.inr rfl) _ _ _, ?_⟩
  · have harrow : Rises (bareTokens [.space, ⟨.lexeme .arrow, ['-', '>']⟩, .space]) := ⟨0, rfl⟩
    have hline := rises_append (clause_rises f.name hcrise)
      (rises_append (effects_rise (effectsOf f)) (rises_append harrow htes.rises))
    exact headed_rises m (by simpa using hline) (rises_append (rises_commented line) hrises)
  · intro fs ts _ hrf h
    obtain ⟨t, more, opener, after, rfl, hk, ho, hafter, hcases⟩ := function_reads hm h
    refine ⟨t, more, rfl, hk, fun {found left} hd => .inr ?_⟩
    obtain ⟨ps, behind, signature, hps, htail, rfl⟩ := hcases hd
    have hclause : Reads false (ces ++ .mark .rightParen ')' :: (effectElements (effectsOf f) ++ .space ::
        ⟨.lexeme .arrow, ['-', '>']⟩ :: .space :: (tes ++ (commented line ++
          (insideElements margin margin' body ++ fs))))) after := by
      simpa using hafter
    obtain ⟨behind', hbehind, hps'⟩ := clause_reads hces ho hclause
    rw [hps'] at hps
    cases hps
    exact tail_stuck htes hbody (rises_append hrises hrf) hbehind htail

/-- A function with a comment in the type of a parameter cannot be read. -/
theorem function_clause_swallowed {tail : List Char} (hces : StuckClause ces)
    (hs : Spelling (declaredText (f.parameters.zip (localNames f)) ++ clauseRest f) ces tail) :
    ∃ es, Forwarding ((functionLines target wildcardLabels f).map write) (forwardedFunction target.isStatic f) es := by
  have hm := modifier_cases target.isStatic f
  have hrises := @inside_rises margin margin' _ ⟨0, nests_rise hbody.nests⟩
  obtain ⟨m, hp⟩ := headed_page hm (.inr rfl) hw (signature_text target f) (opener_spelling hn hs) rfl hpage
  refine ⟨_, hp, ?_, headed_opens hm (.inr rfl) _ _ _, ?_⟩
  · exact headed_rises m (rises_append (opener_rises f.name) hcrise) (rises_append (rises_commented tail) hrises)
  · intro fs ts _ hrf h
    obtain ⟨t, more, opener, after, rfl, hk, ho, hafter, hcases⟩ := function_reads hm h
    refine ⟨t, more, rfl, hk, fun {found left} hd => ?_⟩
    obtain ⟨ps, behind, signature, hps, -, -⟩ := hcases hd
    rw [List.append_assoc] at hafter
    exact absurd hps (clause_stuck hces hbody (rises_append hrises hrf) hafter ps)

end Function

/-- A forwarding function is read as expected, or it gets stuck. -/
theorem function_forwarding {write : Line → List Char} (hw : Indents write) {target : Target} {wildcardLabels : Bool}
    {f : Function} {res : List Element} (hn : Name f.name.toList)
    (hq : ∀ q ∈ f.parameters.zip (localNames f), SpelledParameter q)
    (ht : f.returnType.isEmpty = true ∨ TypeText ["where"] f.returnType)
    (hr : Receiver (target.receiverFor (localNames f)).toList res) :
    ∃ es, Forwarding ((functionLines target wildcardLabels f).map write) (forwardedFunction target.isStatic f) es := by
  have hbody := call_body wildcardLabels hn hr hq
  obtain ⟨margin, margin', hpage⟩ := inside_lines hw hbody
  rcases clause_spelling hq with ⟨ces, hces, hcrise, hclause⟩ | ⟨ces, hces, hcrise, hclause⟩
  · rcases return_spelling ht with ⟨tes, htes, htrise, hreturn⟩ | ⟨tes, tail, line, htes, hreturn⟩
    · exact function_expected hw hn hbody hpage hcrise hces htes htrise
        (hclause (clauseRest_spelling hreturn) (clauseRest_separated f))
    · exact function_result_swallowed hw hn hbody hpage hcrise hces htes
        (hclause (clauseRest_spelling hreturn) (clauseRest_separated f))
  · obtain ⟨es, line, hrest⟩ := clauseRest_spelled ht
    obtain ⟨tail, hs⟩ := hclause hrest.line (clauseRest_separated f)
    exact function_clause_swallowed hw hn hbody hpage hcrise hces hs

end TestHooks.Proxy
