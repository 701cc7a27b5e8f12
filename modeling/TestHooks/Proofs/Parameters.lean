import TestHooks.Proofs.Forwarding

/-!
# Parameters of forwarding functions

Each parameter is written with the name under which it is read. Parameters are read back as they are meant, and a
comment in the type of one of them leaves the clause without its closing parenthesis.
-/

namespace TestHooks.Proxy

open TestHooks.Swift TestHooks.Swift.Reader TestHooks.Text TestHooks.Reader

/-- The pieces after the first each follow a separator. -/
theorem joinWith_cons (sep first : List Char) (others : List (List Char)) :
    joinWith sep (first :: others) = first ++ others.flatMap (sep ++ ·) := by
  induction others generalizing first with
  | nil => simp [joinWith]
  | cons next others ih => rw [joinWith, ih, List.flatMap_cons, List.append_assoc, List.append_assoc]

/-- The parameter that is read back. -/
def forwardedParameter (p : Parameter) (name : String) : Swift.Parameter :=
  ⟨p.label, if name = p.label then none else some name, p.type, none⟩

/-! ### One parameter -/

section One

variable {p : Parameter} {name : String}

/-- The elements of a parameter before its type. -/
def parameterElements (p : Parameter) (name : String) : List Element :=
  .word p.label.toList :: ((if name = p.label then [] else [.space, .word name.toList]) ++ [.mark .colon ':', .space])

theorem parameter_spelling (hl : Name p.label.toList) (hn : Name name.toList) {text tail : List Char} {es : List Element}
    (h : Spelling (p.type.toList ++ text) es tail) (hb : (p.type.toList ++ text).head?.any (!isBlank ·) = true) :
    Spelling ((parameterDeclaration p name).toList ++ text) (parameterElements p name ++ es) tail := by
  have hd : ':' = '.' → (' ' :: (p.type.toList ++ text)).head? ≠ some '.' := nofun
  have hc := (h.space hb).mark (show TokenKind.mark? .colon = some ':' from rfl) hd
  have hw : isWordChar ':' = false ∧ isWordChar ' ' = false := by decide
  unfold parameterDeclaration parameterElements
  by_cases he : name = p.label
  · have := hc.word hl hw.1
    simpa [he] using this
  · have hs := (hc.word hn hw.1).space (by
      obtain ⟨c, cs, hx, -, -, -, hbl⟩ := name_begins hn
      rw [hx, List.cons_append, List.head?_cons, Option.any_some, hbl]
      rfl)
    have := hs.word hl hw.2
    simpa [he] using this

/-- What is read behind the colon of a parameter. -/
def typeAndDefault (firstName : String) (secondName : Option String) : Swift.Reader (Option Swift.Parameter) := do
  let type ← typeText []
  let value ← optionally isAssignment fun _ => expressionText
  pure (some ⟨firstName, secondName, type, value⟩)

theorem parameter_front {first : Token} {second : Option Token} {colon : Token} {rest : List Token}
    (hf : first.kind = .identifier) (hs : ∀ t, second = some t → t.kind = .identifier) (hc : colon.kind = .colon) :
    parameterUnlessClosed.run (first :: (second.toList ++ colon :: rest)) =
      (typeAndDefault first.text (second.map Token.text)).run rest := by
  have hlook : ((look fun ts => ts.head?.any (·.kind == .rightParen)) : Swift.Reader Bool).run
      (first :: (second.toList ++ colon :: rest)) = .ok (false, first :: (second.toList ++ colon :: rest)) := by
    simp [look, hf]
  have hattr : attributes.run (first :: (second.toList ++ colon :: rest)) =
      .ok ([], first :: (second.toList ++ colon :: rest)) := whileNext_skip (by simp [hf])
  have hsecond : ((optionally (·.kind == .identifier) pure) : Swift.Reader (Option Token)).run (second.toList ++ colon :: rest) =
      .ok (second, colon :: rest) := by
    cases second with
    | none => exact optionally_skip (by simp [hc])
    | some t => exact optionally_take (by simp [hs t rfl]) rfl
  unfold parameterUnlessClosed
  rw [run_bind, hlook]
  simp only [Bool.false_eq_true, if_false]
  unfold parameter typeAndDefault
  rw [run_bind, run_bind, hattr]
  simp only [run_bind, token_eq_ok.2 ⟨rfl, hf⟩, hsecond, token_eq_ok.2 ⟨rfl, hc⟩]
  cases (typeText []).run rest with
  | error fault => rfl
  | ok found =>
    obtain ⟨type, after⟩ := found
    simp only
    cases ((optionally isAssignment fun _ => expressionText) : Swift.Reader (Option String)).run after with
    | error fault => rfl
    | ok found => rfl

/-- A parameter is read up to its type. -/
theorem parameter_reads {es : List Element} {ts : List Token} (h : Reads false (parameterElements p name ++ es) ts) :
    ∃ first more rest, ts = first :: more ∧ first.kind = .identifier ∧ Reads false es rest ∧
      parameterUnlessClosed.run ts =
        (typeAndDefault p.label (if name = p.label then none else some name)).run rest := by
  obtain ⟨first, more, rfl, hf, h⟩ := reads_lexeme h
  have hft : first.text = p.label := by rw [hf.text, String.ofList_toList]
  by_cases he : name = p.label
  · rw [if_pos he] at h
    obtain ⟨colon, rest, rfl, hc, h⟩ := reads_lexeme h
    refine ⟨first, _, rest, rfl, hf.kind, reads_space h, ?_⟩
    rw [if_pos he, ← hft]
    exact @parameter_front first none colon rest hf.kind nofun hc.kind
  · rw [if_neg he] at h
    obtain ⟨second, more, rfl, hs, h⟩ := reads_spaced h
    obtain ⟨colon, rest, rfl, hc, h⟩ := reads_lexeme h
    have hst : second.text = name := by rw [hs.text, String.ofList_toList]
    refine ⟨first, _, rest, rfl, hf.kind, reads_space h, ?_⟩
    rw [if_neg he, ← hft, ← hst]
    exact @parameter_front first (some second) colon rest hf.kind (fun t ht => Option.some.inj ht ▸ hs.kind) hc.kind

/-- A parameter whose type holds no comment is read as expected. -/
theorem parameter_clean {es fs : List Element} (ht : TypeSpelling [] p.type es []) {ts : List Token}
    (h : Reads false (parameterElements p name ++ (es ++ fs)) ts) :
    ∃ first more vs, ts = first :: more ∧ first.kind = .identifier ∧ Reads false fs vs ∧
      (vs.head?.any (fun v => v.kind == .comma || v.kind == .rightParen) = true →
        parameterUnlessClosed.run ts = .ok (some (forwardedParameter p name), vs)) := by
  obtain ⟨first, more, rest, rfl, hf, h, hrun⟩ := parameter_reads h
  obtain ⟨vs, hv, htype⟩ := reads_type ht h
  refine ⟨first, more, vs, rfl, hf, hv, fun hx => ?_⟩
  cases vs with
  | nil => cases hx
  | cons v vs =>
    rw [List.head?_cons, Option.any_some, Bool.or_eq_true, beq_iff_eq, beq_iff_eq] at hx
    have htype := htype (by rcases hx with hx | hx <;> simp [Token.endsType, hx])
    have hno : isAssignment v = false := by rcases hx with hx | hx <;> simp [isAssignment, hx]
    rw [hrun]
    unfold typeAndDefault
    rw [run_bind_eq_ok]
    refine ⟨p.type, _, htype, run_bind_eq_ok.2 ⟨none, v :: vs, optionally_skip ?_, rfl⟩⟩
    rw [List.head?_cons, Option.any_some, hno]

end One

/-! ### Bodies -/

/-- A body that returns something, on one line. -/
structure Body (text : List Char) (body : List Element) : Prop where
  spelling : Spelling text body []
  starts : ∃ more, body = .word "return".toList :: more
  nests : nests [] (bareTokens body) = true

/-- A type that is bridged into a body goes on to the brace behind it, or to a word at which types stop. -/
theorem body_swallowed {text : List Char} {body : List Element} (hb : Body text body) {stops : List String}
    (hs : "return" ∉ stops) {last closer : Token} (hl : last.continuesType = true) {inside : List Token}
    (hi : Reads true body inside) (hc : closer.kind = .rightBrace) (rest : List Token) :
    splitType stops 0 (some last) (inside ++ closer :: rest) = (inside, closer :: rest) ∨
      ∃ front t back, inside = front ++ t :: back ∧ t.isOneOf stops = true ∧
        splitType stops 0 (some last) (inside ++ closer :: rest) = (front, t :: back ++ closer :: rest) := by
  obtain ⟨more, rfl⟩ := hb.starts
  obtain ⟨word, inside, rfl, hw, hm⟩ := reads_lexeme hi
  have hk := hw.kind
  have ht : word.text = "return" := by rw [hw.text, String.ofList_toList]
  have hline : '\n' ∉ more.flatMap Element.text := by
    have := hb.spelling.line
    rw [← hb.spelling.flatten, List.append_nil, List.flatMap_cons, List.mem_append, not_or] at this
    exact this.2
  have hnest : nests [] inside = true := by
    have := hb.nests
    rw [← nests_bare, reads_bare hm]
    exact this
  have hword : word.isOneOf stops = false := by
    rw [Token.isOneOf, ht, Bool.and_eq_false_iff]
    right
    rw [Bool.eq_false_iff]
    exact fun hx => hs (List.contains_iff_mem.1 hx)
  have hend : word.endsType = false := by simp [Token.endsType, hk]
  have hdepth : typeDepth 0 word = ([] : List TokenKind).length := by simp [typeDepth, hk]
  have hclose (previous : Option Token) : splitType stops 0 previous (closer :: rest) = ([], closer :: rest) := by
    rw [splitType, if_pos]
    simp [Token.endsType, hc]
  rw [List.cons_append, splitType, if_neg (by simp [hend, hword, Token.breaksType, hl]), hdepth]
  rcases nests_split hnest (reads_unbroken hm hline) (some word) (closer :: rest) with hx | ⟨front, t, back, rfl, ht, hx⟩
  · left
    rw [hx, hclose, List.append_nil]
  · right
    refine ⟨word :: front, t, back, rfl, ht, ?_⟩
    rw [hx]

/-- What a type with a comment in it leaves behind, before a body and `fs`: nothing, the whole body, the brace behind it,
or a word at which types stop and the rest of the body. -/
inductive Overrun (stops : List String) (fs : List Element) : List Token → Prop
  | all : Overrun stops fs []
  | body {word : Token} {rest : List Token} (hk : word.kind = .identifier) (ht : word.text = "return") :
    Overrun stops fs (word :: rest)
  | brace {closer : Token} {vs : List Token} (hk : closer.kind = .rightBrace) (hv : Reads false fs vs) :
    Overrun stops fs (closer :: vs)
  | stop {t closer : Token} {back vs : List Token} (ht : t.isOneOf stops = true) (hback : NoBraces back)
    (hk : closer.kind = .rightBrace) (hv : Reads false fs vs) : Overrun stops fs (t :: back ++ closer :: vs)

theorem overrun_of_comment {stops : List String} (hs : "return" ∉ stops) {type : String}
    {text tail line margin margin' : List Char} {es body fs : List Element} (ht : TypeSpelling stops type es tail)
    (hb : Body text body) {ts : List Token} (hr : Rises (bareTokens (insideElements margin margin' body ++ fs)))
    (h : Reads false (es ++ (commented line ++ (insideElements margin margin' body ++ fs))) ts) :
    Overrun stops fs (splitType stops 0 none ts).2 := by
  rw [insideElements, List.cons_append] at h hr
  obtain ⟨us, vs, rfl, -, hv, hcase | ⟨last, hcase⟩⟩ := reads_commented_type ht h hr
  · rw [hcase]
    exact .all
  rw [hcase]
  obtain ⟨inside, closer, vs, rfl, hin, hc, hfs⟩ := body_reads hv
  by_cases hlast : last.continuesType = true
  · -- the type goes on over the body
    rcases body_swallowed hb hs hlast hin hc vs with hx | ⟨front, t, back, rfl, htw, hx⟩
    · rw [hx]
      exact .brace hc hfs
    · rw [hx]
      have hfree := nests_noBraces hb.nests
      rw [← reads_bare hin] at hfree
      refine .stop htw (fun u hu => noBraces_bare hfree u ?_) hc hfs
      exact List.mem_append_right _ (List.mem_cons_of_mem _ hu)
  · -- the type ends at the line break
    obtain ⟨more, rfl⟩ := hb.starts
    obtain ⟨word, inside, rfl, hword, -⟩ := reads_lexeme hin
    have hgoes : word.continuesType = false := by simp [Token.continuesType, hword.kind]
    rw [List.cons_append, split_broken hword.newlineBefore (Bool.eq_false_iff.2 hlast) hgoes]
    exact .body hword.kind (by rw [hword.text, String.ofList_toList])

/-- A comment in the type of a parameter leaves no comma and no closing parenthesis behind the parameter. -/
theorem parameter_stuck {p : Parameter} {name : String} {text tail line margin margin' : List Char}
    {es body fs : List Element} (ht : TypeSpelling [] p.type es tail) (hb : Body text body) {ts left : List Token}
    (hr : Rises (bareTokens (insideElements margin margin' body ++ fs)))
    (h : Reads false (parameterElements p name ++ (es ++ (commented line ++ (insideElements margin margin' body ++ fs)))) ts)
    {found : Option Swift.Parameter} (hrun : parameterUnlessClosed.run ts = .ok (found, left)) :
    left.head?.any (fun v => v.kind == .comma || v.kind == .rightParen) = false := by
  obtain ⟨first, more, rest, rfl, hf, h, hx⟩ := parameter_reads h
  rw [hx] at hrun
  unfold typeAndDefault at hrun
  obtain ⟨type, after, htype, hrun⟩ := run_bind_eq_ok.1 hrun
  obtain ⟨value, after', hvalue, hrun⟩ := run_bind_eq_ok.1 hrun
  obtain ⟨-, rfl⟩ := run_pure_eq_ok.1 hrun
  obtain ⟨head, taken, hsplit, -⟩ := phraseBy_eq_ok.1 htype
  have hover := overrun_of_comment List.not_mem_nil ht hb hr h
  rw [hsplit] at hover
  generalize after = rest at hover hvalue
  cases hover with
  | all =>
    have hn : after' = [] := List.suffix_nil.1 (Reader.suffix _ hvalue)
    rw [hn]
    rfl
  | body hk _ | brace hk _ =>
    rw [optionally_skip (by simp [isAssignment, hk])] at hvalue
    cases hvalue
    simp [hk]
  | stop hstop => simp [Token.isOneOf] at hstop

/-! ### Several parameters -/

/-- A parameter with the name under which it is read, both as they were read. -/
structure SpelledParameter (q : Parameter × String) : Prop where
  label : Name q.1.label.toList
  name : Name q.2.toList
  type : TypeText [] q.1.type

theorem declaration_line {q : Parameter × String} (h : SpelledParameter q) :
    '\n' ∉ (parameterDeclaration q.1 q.2).toList := by
  obtain ⟨es, tail, ht⟩ := h.type
  have h₁ := h.label.titled.line
  have h₂ := h.name.titled.line
  have h₃ := ht.line
  unfold parameterDeclaration
  split <;> simp [h₁, h₂, h₃]

theorem declaration_begins {q : Parameter × String} (h : SpelledParameter q) (rest : List Char) :
    ((parameterDeclaration q.1 q.2).toList ++ rest).head?.any (!isBlank ·) = true := by
  obtain ⟨c, cs, hc, -, -, -, hb⟩ := name_begins h.label
  unfold parameterDeclaration
  split <;> simp [hc, hb]

def otherText (qs : List (Parameter × String)) : List Char :=
  qs.flatMap fun q => ',' :: ' ' :: (parameterDeclaration q.1 q.2).toList

/-- The elements of a comma and a parameter behind it, up to its type. -/
def otherElements (q : Parameter × String) : List Element :=
  .mark .comma ',' :: .space :: parameterElements q.1 q.2

/-- The elements of parameters behind the first. -/
inductive OtherParameters : List (Parameter × String) → List Element → Prop
  | nil : OtherParameters [] []
  | cons {q : Parameter × String} {qs : List (Parameter × String)} {tes es : List Element}
    (ht : TypeSpelling [] q.1.type tes []) (h : OtherParameters qs es) :
    OtherParameters (q :: qs) (otherElements q ++ (tes ++ es))

/-- The elements of parameters behind the first, up to a comment. -/
inductive StuckParameters : List Element → Prop
  | here {q : Parameter × String} {tes : List Element} {tail : List Char} (ht : TypeSpelling [] q.1.type tes tail) :
    StuckParameters (otherElements q ++ tes)
  | there {q : Parameter × String} {tes es : List Element} (ht : TypeSpelling [] q.1.type tes [])
    (h : StuckParameters es) : StuckParameters (otherElements q ++ (tes ++ es))

theorem other_spelling {q : Parameter × String} (hq : SpelledParameter q) {text tail : List Char} {es : List Element}
    (h : Spelling (q.1.type.toList ++ text) es tail) (hb : (q.1.type.toList ++ text).head?.any (!isBlank ·) = true) :
    Spelling (',' :: ' ' :: ((parameterDeclaration q.1 q.2).toList ++ text)) (otherElements q ++ es) tail := by
  have hd : ',' = '.' → (' ' :: ((parameterDeclaration q.1 q.2).toList ++ text)).head? ≠ some '.' := nofun
  have hp := parameter_spelling hq.label hq.name h hb
  exact (hp.space (declaration_begins hq text)).mark (show TokenKind.mark? .comma = some ',' from rfl) hd

theorem type_begins {type : String} (ht : TypeText [] type) (rest : List Char) :
    (type.toList ++ rest).head?.any (!isBlank ·) = true := by
  obtain ⟨es, tail, ht⟩ := ht
  exact begins_before ht.begins rest

theorem separated_other {qs : List (Parameter × String)} {rest : List Char} (hr : Separated rest) :
    Separated (otherText qs ++ rest) := by
  cases qs with
  | nil => exact hr
  | cons q qs => exact (rfl : isSeparator ',' = true)

theorem otherText_line {qs : List (Parameter × String)} (h : ∀ q ∈ qs, SpelledParameter q) : '\n' ∉ otherText qs := by
  intro hm
  obtain ⟨r, hr, hm⟩ := List.mem_flatMap.1 hm
  have := declaration_line (h r hr)
  simp [this] at hm

theorem other_text (q : Parameter × String) (qs : List (Parameter × String)) (rest : List Char) :
    otherText (q :: qs) ++ rest = ',' :: ' ' :: ((parameterDeclaration q.1 q.2).toList ++ (otherText qs ++ rest)) := by
  simp [otherText]

theorem other_rises (q : Parameter × String) : Rises (bareTokens (otherElements q)) := by
  unfold otherElements parameterElements
  split <;> exact ⟨0, rfl⟩

/-- Parameters behind the first are spelled to their ends where their types are. -/
theorem other_spelled {qs : List (Parameter × String)} (h : ∀ q ∈ qs, SpelledParameter q)
    (ht : ∀ q ∈ qs, ∃ tes, TypeSpelling [] q.1.type tes []) :
    ∃ es, OtherParameters qs es ∧ Rises (bareTokens es) ∧ ∀ {rest tail : List Char} {fs : List Element},
      Spelling rest fs tail → Separated rest → Spelling (otherText qs ++ rest) (es ++ fs) tail := by
  induction qs with
  | nil => exact ⟨[], .nil, ⟨0, rfl⟩, fun hr _ => hr⟩
  | cons q qs ih =>
    have hq := h q List.mem_cons_self
    obtain ⟨tes, htes⟩ := ht q List.mem_cons_self
    obtain ⟨es, hes, hrise, hsp⟩ :=
      ih (fun r hr => h r (List.mem_cons_of_mem _ hr)) fun r hr => ht r (List.mem_cons_of_mem _ hr)
    refine ⟨_, .cons htes hes, rises_append (other_rises q) (rises_append htes.rises hrise), fun {rest tail fs} hr hs => ?_⟩
    rw [other_text, List.append_assoc, List.append_assoc]
    exact other_spelling hq (htes.append (hsp hr hs) (separated_other hs)) (type_begins hq.type _)

/-- Parameters behind the first are spelled up to a comment where a type holds one. -/
theorem other_swallowed {qs : List (Parameter × String)} (h : ∀ q ∈ qs, SpelledParameter q)
    (ht : ¬∀ q ∈ qs, ∃ tes, TypeSpelling [] q.1.type tes []) :
    ∃ es, StuckParameters es ∧ Rises (bareTokens es) ∧ ∀ {rest : List Char}, '\n' ∉ rest → Separated rest →
      ∃ tail, Spelling (otherText qs ++ rest) es tail := by
  induction qs with
  | nil => exact absurd (List.forall_mem_nil _) ht
  | cons q qs ih =>
    have hq := h q List.mem_cons_self
    have hqs : ∀ r ∈ qs, SpelledParameter r := fun r hr => h r (List.mem_cons_of_mem _ hr)
    by_cases hfirst : ∃ tes, TypeSpelling [] q.1.type tes []
    · obtain ⟨tes, htes⟩ := hfirst
      obtain ⟨es, hes, hrise, hsp⟩ := ih hqs fun hx => ht (List.forall_mem_cons.2 ⟨⟨tes, htes⟩, hx⟩)
      refine ⟨_, .there htes hes, rises_append (other_rises q) (rises_append htes.rises hrise), fun {rest} hl hs => ?_⟩
      obtain ⟨tail, hsp⟩ := hsp hl hs
      refine ⟨tail, ?_⟩
      rw [other_text]
      exact other_spelling hq (htes.append hsp (separated_other hs)) (type_begins hq.type _)
    · obtain ⟨tes, tail, htes⟩ := hq.type
      have htail : tail ≠ [] := by
        rintro rfl
        exact hfirst ⟨tes, htes⟩
      refine ⟨_, .here htes, rises_append (other_rises q) htes.rises, fun {rest} hl hs => ⟨tail ++ (otherText qs ++ rest), ?_⟩⟩
      rw [other_text]
      refine other_spelling hq (htes.swallow htail (separated_other hs) ?_) (type_begins hq.type _)
      rw [List.mem_append, not_or]
      exact ⟨otherText_line hqs, hl⟩

theorem next_parameter {comma : Token} {ts after left : List Token} {p : Option Swift.Parameter}
    {others : List (Option Swift.Parameter)} (hc : comma.kind = .comma)
    (hp : parameterUnlessClosed.run ts = .ok (p, after))
    (ho : (whileNext (·.kind == .comma) fun _ => parameterUnlessClosed).run after = .ok (others, left)) :
    (whileNext (·.kind == .comma) fun _ => parameterUnlessClosed).run (comma :: ts) = .ok (p :: others, left) := by
  simp only [whileNext] at ho ⊢
  rw [whileNextRun, if_pos (by simp [hc])]
  split
  · next he =>
    rw [hp] at he
    cases he
    rw [ho]
  · next he =>
    rw [hp] at he
    cases he

theorem next_parameter_cases {comma : Token} {ts left : List Token} {found : List (Option Swift.Parameter)}
    (hc : comma.kind = .comma)
    (h : (whileNext (·.kind == .comma) fun _ => parameterUnlessClosed).run (comma :: ts) = .ok (found, left)) :
    ∃ p after others, parameterUnlessClosed.run ts = .ok (p, after) ∧
      (whileNext (·.kind == .comma) fun _ => parameterUnlessClosed).run after = .ok (others, left) := by
  simp only [whileNext] at h ⊢
  rw [whileNextRun, if_pos (by simp [hc])] at h
  split at h
  · next hp =>
    split at h
    · next ho =>
      cases h
      exact ⟨_, _, _, hp, ho⟩
    · cases h
  · cases h

/-- Parameters behind the first are read as expected, up to the closing parenthesis. -/
theorem other_reads {qs : List (Parameter × String)} {es fs : List Element} (ho : OtherParameters qs es) {ts : List Token}
    (h : Reads false (es ++ .mark .rightParen ')' :: fs) ts) :
    ∃ v vs, (v.kind = .comma ∨ v.kind = .rightParen) ∧ ts = v :: vs ∧ ∃ closer left, closer.kind = .rightParen ∧
      Reads false fs left ∧ (whileNext (·.kind == .comma) fun _ => parameterUnlessClosed).run ts =
        .ok (qs.map fun q => some (forwardedParameter q.1 q.2), closer :: left) := by
  induction ho generalizing ts with
  | nil =>
    obtain ⟨closer, left, rfl, hc, h⟩ := reads_lexeme h
    refine ⟨closer, left, .inr hc.kind, rfl, closer, left, hc.kind, h, ?_⟩
    exact whileNext_skip (by simp [hc.kind])
  | @cons q qs tes es ht ho ih =>
    have h' : Reads false (.mark .comma ',' :: .space :: (parameterElements q.1 q.2 ++
        (tes ++ (es ++ .mark .rightParen ')' :: fs)))) ts := by
      simpa [otherElements] using h
    obtain ⟨comma, rest, rfl, hc, h⟩ := reads_lexeme h'
    obtain ⟨first, more, vs, rfl, -, hv, hp⟩ := parameter_clean ht (reads_space h)
    obtain ⟨v, vs', hk, rfl, closer, left, hcl, hleft, hw⟩ := ih hv
    refine ⟨comma, _, .inl hc.kind, rfl, closer, left, hcl, hleft, ?_⟩
    exact next_parameter hc.kind (hp (by rcases hk with hk | hk <;> simp [hk])) hw

/-- Behind a comment in the type of a parameter no closing parenthesis is left. -/
theorem other_stuck {es body fs : List Element} {text line margin margin' : List Char} (hs : StuckParameters es)
    (hb : Body text body) (hr : Rises (bareTokens (insideElements margin margin' body ++ fs))) {ts left : List Token}
    (h : Reads false (es ++ (commented line ++ (insideElements margin margin' body ++ fs))) ts) :
    ∃ v vs, v.kind = .comma ∧ ts = v :: vs ∧ ∀ {found : List (Option Swift.Parameter)},
      (whileNext (·.kind == .comma) fun _ => parameterUnlessClosed).run ts = .ok (found, left) →
        left.head?.any (·.kind == .rightParen) = false := by
  have hno {ts : List Token} (h : ts.head?.any (fun v => v.kind == .comma || v.kind == .rightParen) = false) :
      ts.head?.any (·.kind == .comma) = false ∧ ts.head?.any (·.kind == .rightParen) = false := by
    cases ts with
    | nil => exact ⟨rfl, rfl⟩
    | cons t ts => simpa using h
  induction hs generalizing ts with
  | @here q tes tail ht =>
    have h' : Reads false (.mark .comma ',' :: .space :: (parameterElements q.1 q.2 ++
        (tes ++ (commented line ++ (insideElements margin margin' body ++ fs))))) ts := by
      simpa [otherElements] using h
    obtain ⟨comma, rest, rfl, hc, h⟩ := reads_lexeme h'
    refine ⟨comma, rest, hc.kind, rfl, fun {found} hrun => ?_⟩
    obtain ⟨p, after, others, hp, hw⟩ := next_parameter_cases hc.kind hrun
    obtain ⟨h₁, h₂⟩ := hno (parameter_stuck ht hb hr (reads_space h) hp)
    rw [whileNext_skip h₁] at hw
    cases hw
    exact h₂
  | @there q tes es ht hs ih =>
    have h' : Reads false (.mark .comma ',' :: .space :: (parameterElements q.1 q.2 ++
        (tes ++ (es ++ (commented line ++ (insideElements margin margin' body ++ fs)))))) ts := by
      simpa [otherElements] using h
    obtain ⟨comma, rest, rfl, hc, h⟩ := reads_lexeme h'
    obtain ⟨first, more, vs, rfl, -, hv, hp⟩ := parameter_clean ht (reads_space h)
    obtain ⟨v, vs', hk, rfl, hleft⟩ := ih hv
    refine ⟨comma, _, hc.kind, rfl, fun {found} hrun => ?_⟩
    obtain ⟨p, after, others, hp', hw⟩ := next_parameter_cases hc.kind hrun
    rw [hp (by simp [hk])] at hp'
    cases hp'
    exact hleft hw

end TestHooks.Proxy
