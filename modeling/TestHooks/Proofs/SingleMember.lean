import TestHooks.Proofs.PrintedHeaders

/-!
# A type with a single member

A text is a member of a type if the type is read with it and nothing else (`ReadsMember`). It is if the tokens behind the
opening brace are read as it (`reads_member`); for a variable these are its binding (`reads_privateVariable`).
-/

namespace TestHooks.Swift

open TestHooks.Reader TestHooks.Text Reader

/-! ### Members -/

def memberText (member : String) : String := "class A \x7b\n" ++ member ++ "\n\x7d"

/-- The text is read as the only member of a type. -/
def ReadsMember (member : String) (made : Position → Decl) : Prop :=
  ∃ p q, parse (memberText member) = .ok [.group ⟨[], [], p⟩ ⟨.classType, "A", none, []⟩ [made q]]

/-- The end of a type behind its last member. -/
def closeElements : List Element := [.lineBreak [], .mark .rightBrace '\x7d']

def memberElements (es : List Element) : List Element :=
  .word "class".toList :: .space :: .word "A".toList :: .space :: .mark .leftBrace '\x7b' ::
    .lineBreak [] :: (es ++ closeElements)

theorem Stands.close {es : List Element} (h : Stands es) : Stands (es ++ closeElements) :=
  h.append ((stands_nil.mark rfl (by decide)).lineBreak ⟨_, '\x7d', [], _, rfl, by decide⟩) (apart_cons _ (by decide))

theorem member_fits {es : List Element} (hs : Stands es) (hb : Starts es) : Fitting (memberElements es) [] := by
  have hmember := hs.close.lineBreak (hb.append closeElements)
  have hblock := (hmember.mark (show TokenKind.mark? .leftBrace = some '\x7b' from rfl) (by decide)).space
    ⟨_, '\x7b', [], _, rfl, by decide⟩
  have hname := hblock.word (name_of_plain (by decide : isPlainWord "A".toList = true)) (apart_cons _ (by decide))
  have hn := name_of_plain (by decide : isPlainWord "class".toList = true)
  exact spaced_stands hn hname (starts_word (name_of_plain (by decide)) _) [] rfl

theorem reads_lexed {broken : Bool} {es : List Element} {ts : List Token} {after : List Char} (h : Reads broken es ts)
    (hf : Fitting es after) : ∀ t ∈ ts, t.Lexed := by
  obtain ⟨place, gap, -, rfl⟩ := h
  exact fun t ht => Token.lexed_of_mem hf ht

section OpenedClass

variable {k n o : Token} {ts : List Token} {ms : List Decl} (hk : k.kind = .identifier)
  (hkt : k.text = TypeKeyword.classType.text) (hn : n.kind = .identifier) (hplain : modifiesMember [n] = false)
  (ho : o.kind = .leftBrace)

include hk hkt hn hplain ho

/-- A class is read by its members. -/
theorem class_cases {head : Head} {header : TypeHeader} {others : List Decl}
    (h : topLevel (k :: n :: o :: ts) = .ok (.group head header ms :: others)) :
    ∃ left, membersRun ts = .ok (ms, left) := by
  rcases topLevel_cases h with ⟨hx, -⟩ | ⟨t, rest, hx, ⟨hx', -⟩ | ⟨-, -, first, left, others, hd, -, hfound⟩⟩
  · cases hx
  · obtain ⟨rfl, -⟩ := List.cons.inj hx
    rw [hk] at hx'
    cases hx'
  obtain ⟨rfl, rfl⟩ := List.cons.inj hx
  obtain ⟨header, inside, ms, hh, hms, rfl⟩ :=
    group_cases (by simp [hk]) (headFrom_type hk hkt hplain (o :: ts)) (introducer_type hk hkt) hd
  rw [typeHeader_named (by decide) hn ho ts, Except.ok.injEq, Prod.mk.injEq] at hh
  obtain ⟨-, rfl⟩ := hh
  obtain ⟨-, -, rfl⟩ := Decl.group.inj (List.cons.inj hfound).1
  exact ⟨left, hms⟩

/-- A class whose members are read to the end of the text is all there is. -/
theorem class_read (h : membersRun ts = .ok (ms, [])) :
    topLevel (k :: n :: o :: ts) = .ok [.group ⟨[], [], k.position⟩ ⟨.classType, n.text, none, []⟩ ms] := by
  have hgroup : declarationRun false k (n :: o :: ts) =
      .ok (some (.group ⟨[], [], k.position⟩ ⟨.classType, n.text, none, []⟩ ms), []) :=
    declarationRun_group (by simp [hk]) (headFrom_type hk hkt hplain (o :: ts)) (introducer_type hk hkt)
      (typeHeader_named (by decide) hn ho ts) h
  rw [topLevel_declaration (by simp [hk]) (by simp [hk]) hgroup, topLevel]
  rfl

end OpenedClass

/-- What the tokens of a member are read as. -/
theorem reads_member {member : String} {es : List Element} (hm : es.flatMap Element.text = member.toList)
    (hs : Stands es) (hb : Starts es) : ∃ ts, Reads true (es ++ closeElements) ts ∧ ∀ made : Position → Decl,
      (ReadsMember member made → ∃ q left, membersRun ts = .ok ([made q], left)) ∧
        ∀ q, membersRun ts = .ok ([made q], []) → ReadsMember member made := by
  have htext : (memberElements es).flatMap Element.text = (memberText member).toList := by
    simp [memberElements, closeElements, memberText, hm, Element.word, Element.mark, Element.space,
      Element.lineBreak]
  have hread := ofText_of_fitting (member_fits hs hb) htext
  obtain ⟨k, ts, hk, hkw, h⟩ := reads_lexeme (reads_origin (memberElements es))
  obtain ⟨n, ts, rfl, hn, h⟩ := reads_spaced h
  obtain ⟨o, ts, rfl, ho, h⟩ := reads_spaced h
  rw [hk] at hread
  have hkt : k.text = TypeKeyword.classType.text := by rw [hkw.text]; rfl
  have hname : n.text = "A" := by rw [hn.text]; rfl
  have hplain : modifiesMember [n] = false := by
    simp only [modifiesMember, Token.isOneOf, hn.kind, hname]
    decide
  have hparse : parse (memberText member) =
      (topLevel (k :: n :: o :: ts)).mapError (Fault.toError (k :: n :: o :: ts).getLast?) := by
    unfold parse
    simp only [hread]
  refine ⟨ts, @reads_break _ [] [] _ _ h, fun made => ⟨?_, fun q hq => ⟨k.position, q, ?_⟩⟩⟩
  · rintro ⟨p, q, h⟩
    have htop := (parse_cases h).2
    rw [hread] at htop
    exact ⟨q, class_cases hkw.kind hkt hn.kind hplain ho.kind htop⟩
  · rw [hparse, class_read hkw.kind hkt hn.kind hplain ho.kind hq, hname]
    rfl

theorem reads_close {ts : List Token} (h : Reads false closeElements ts) :
    ∃ k, ts = [k] ∧ k.kind = .rightBrace ∧ Ended [k] := by
  obtain ⟨k, more, rfl, hk, h⟩ := reads_line h
  obtain rfl := reads_nil.1 h
  exact ⟨k, rfl, hk.kind, by simp [Ended, hk.newlineBefore, hk.kind]⟩

/-! ### Variables -/

def privateVariable (b : Binding) (q : Position) : Decl :=
  .variableList ⟨[], [⟨"private", none⟩], q⟩ .varKeyword [b]

/-- A private variable with the name `x` before what is to be read of it. -/
theorem reads_privateVariable {fs : List Element} (hs : Stands fs) (ha : Apart fs) : ∃ x ts, x.kind = .identifier ∧
    x.text = "x" ∧ Reads false (fs ++ closeElements) ts ∧ ∀ b,
      (ReadsMember ("private var x" ++ String.ofList (fs.flatMap Element.text)) (privateVariable b) →
        ∃ left, binding.run (x :: ts) = .ok (b, left)) ∧
      ∀ k : Token, k.kind = .rightBrace → binding.run (x :: ts) = .ok (b, [k]) →
        ReadsMember ("private var x" ++ String.ofList (fs.flatMap Element.text)) (privateVariable b) := by
  have hprivate : Name "private".toList := name_of_plain (by decide)
  have hvar : Name "var".toList := name_of_plain (by decide)
  have hname : Name "x".toList := name_of_plain (by decide)
  have hx := hs.word hname ha
  have hv := spaced_stands hvar hx (starts_word hname _)
  obtain ⟨ts, h, hmember⟩ := @reads_member ("private var x" ++ String.ofList (fs.flatMap Element.text)) _
    (by simp [Element.word, Element.space]) (spaced_stands hprivate hv (starts_word hvar _)) (starts_word hprivate _)
  obtain ⟨p, ts, rfl, hp, h⟩ := reads_lexeme h
  obtain ⟨k, ts, rfl, hk, h⟩ := reads_spaced h
  obtain ⟨x, ts, rfl, hx, h⟩ := reads_spaced h
  have hptext : p.text = "private" := by rw [hp.text]; rfl
  have hktext : k.text = "var" := by rw [hk.text]; rfl
  have hhead : (headFrom p).run (p :: k :: x :: ts) = .ok (⟨[], [⟨"private", none⟩], p.position⟩, k :: x :: ts) := by
    rw [headFrom_modifier hk.kind (by rw [hktext]; decide) hp.kind (by rw [hptext]; decide) (by rw [hptext]; decide),
      hptext]
  refine ⟨x, ts, hx.kind, by rw [hx.text]; rfl, h, fun b => ⟨fun hread => ?_, fun brace hbrace hrun => ?_⟩⟩
  · obtain ⟨q, left, hms⟩ := (hmember _).1 hread
    obtain ⟨first, after, others, hd, -, hfound⟩ := members_word hp.kind hms
    obtain ⟨bs, hbs, rfl⟩ := variable_cases hp.kind hhead hk.kind hktext hd
    obtain ⟨hvariable, -⟩ := List.cons.inj hfound
    obtain ⟨-, -, rfl⟩ := Decl.variableList.inj hvariable
    obtain ⟨b', middle, others, hb, -, he⟩ := byCommas_cases hbs
    obtain ⟨rfl, -⟩ := List.cons.inj he
    exact ⟨middle, hb⟩
  · have hi : Introducer.ofToken? k = some (.variableList .varKeyword) := introducer_variable hk.kind hktext
    have hdeclared : declarationRun true p (k :: x :: ts) = .ok (some (privateVariable b p.position), [brace]) := by
      refine declarationRun_flat (by simp [hp.kind]) hhead (by simp [hi]) ?_
      rw [hi, flatDeclaration, run_bind_eq_ok]
      exact ⟨_, _, byCommas_one hrun (by simp [hbrace]), rfl⟩
    exact (hmember _).2 p.position
      (membersRun_member (by simp [hp.kind]) (by simp [hp.kind]) hdeclared (membersRun_close hbrace))

/-- The type of a variable is what stands behind the colon. -/
theorem binding_annotated {x colon : Token} {rest left : List Token} {b : Binding} (hx : x.kind = .identifier)
    (hc : colon.kind = .colon) (h : binding.run (x :: colon :: rest) = .ok (b, left)) :
    ∃ type after, (typeText []).run rest = .ok (type, after) ∧ b.type = some type := by
  obtain ⟨named, typed, valued, hn, ht, -, -⟩ := binding_cases h
  rw [bindingName_word hx, Except.ok.injEq, Prod.mk.injEq] at hn
  obtain ⟨-, rfl⟩ := hn
  rcases optionally_cases ht with ⟨hx, -, -⟩ | ⟨t, more, type, he, -, hrun, htype⟩
  · simp [hc] at hx
  · cases he
    exact ⟨type, typed, hrun, htype⟩

theorem optional_value {eq : Token} {rest left : List Token} {value : Option String} (he : isAssignment eq = true) :
    (optionally isAssignment fun _ => expressionText).run (eq :: rest) = .ok (value, left) ↔
      ∃ text, expressionText.run rest = .ok (text, left) ∧ value = some text := by
  constructor
  · intro h
    rcases optionally_cases h with ⟨hx, -, -⟩ | ⟨t, more, text, hcons, -, hrun, rfl⟩
    · rw [List.head?_cons, Option.any_some, he] at hx
      cases hx
    · cases hcons
      exact ⟨text, hrun, rfl⟩
  · rintro ⟨text, hrun, rfl⟩
    exact optionally_take he hrun

/-- Behind an equals sign a variable has a value, and accessors if a brace follows. -/
theorem binding_initialized {x eq : Token} {rest left : List Token} {b : Binding} (hx : x.kind = .identifier)
    (he : isAssignment eq = true) : binding.run (x :: eq :: rest) = .ok (b, left) ↔
      ∃ text after block, expressionText.run rest = .ok (text, after) ∧
        (optionally (·.kind == .leftBrace) accessorBlock).run after = .ok (block, left) ∧
          b = ⟨x.text, none, some text, block, false⟩ := by
  have hcolon : (eq :: rest).head?.any (·.kind == .colon) = false := by
    rw [isAssignment, Bool.and_eq_true, beq_iff_eq] at he
    simp [he.1]
  unfold binding
  constructor
  · intro h
    obtain ⟨⟨name, isPattern⟩, after, hn, h⟩ := run_bind_eq_ok.1 h
    rw [bindingName_word hx] at hn
    cases hn
    obtain ⟨type, after, ht, h⟩ := run_bind_eq_ok.1 h
    rw [optionally_skip hcolon] at ht
    cases ht
    obtain ⟨value, after, hv, h⟩ := run_bind_eq_ok.1 h
    obtain ⟨block, after', hb, h⟩ := run_bind_eq_ok.1 h
    obtain ⟨rfl, rfl⟩ := run_pure_eq_ok.1 h
    obtain ⟨text, htext, rfl⟩ := (optional_value he).1 hv
    exact ⟨text, after, block, htext, hb, rfl⟩
  · rintro ⟨text, after, block, htext, hb, rfl⟩
    exact run_bind_eq_ok.2 ⟨_, _, bindingName_word hx _, run_bind_eq_ok.2 ⟨_, _, optionally_skip hcolon,
      run_bind_eq_ok.2 ⟨_, _, (optional_value he).2 ⟨text, htext, rfl⟩, run_bind_eq_ok.2 ⟨_, _, hb, rfl⟩⟩⟩⟩

/-! ### Parameters -/

/-- A parameter without a second name has the default value that is read behind its type. -/
theorem parameter_defaulted {a colon eq : Token} {ts rest left : List Token} {type : String} {p : Option Parameter}
    (ha : a.kind = .identifier) (hc : colon.kind = .colon) (he : isAssignment eq = true)
    (ht : (typeText []).run ts = .ok (type, eq :: rest)) : parameterUnlessClosed.run (a :: colon :: ts) = .ok (p, left) ↔
      ∃ value, expressionText.run rest = .ok (value, left) ∧ p = some ⟨a.text, none, type, some value⟩ := by
  have hattributes : attributes.run (a :: colon :: ts) = .ok ([], a :: colon :: ts) := whileNext_skip (by simp [ha])
  have hsecond : (optionally (·.kind == .identifier) pure : Reader (Option Token)).run (colon :: ts) =
      .ok (none, colon :: ts) := optionally_skip (by simp [hc])
  have hopen : (look fun ts => ts.head?.any (·.kind == .rightParen) : Reader Bool).run (a :: colon :: ts) =
      .ok (false, a :: colon :: ts) := by simp [look, ha]
  unfold parameterUnlessClosed parameter
  rw [run_bind_of hopen, if_neg Bool.false_ne_true]
  constructor
  · intro h
    obtain ⟨q, after, hq, h⟩ := run_bind_eq_ok.1 h
    rw [run_bind_of hattributes, run_bind_of (token_eq_ok.2 ⟨rfl, ha⟩), run_bind_of hsecond,
      run_bind_of (token_eq_ok.2 ⟨rfl, hc⟩), run_bind_of ht] at hq
    obtain ⟨value, after', hv, hq⟩ := run_bind_eq_ok.1 hq
    obtain ⟨rfl, rfl⟩ := run_pure_eq_ok.1 hq
    obtain ⟨rfl, rfl⟩ := run_pure_eq_ok.1 h
    obtain ⟨text, htext, rfl⟩ := (optional_value he).1 hv
    exact ⟨text, htext, rfl⟩
  · rintro ⟨value, hvalue, rfl⟩
    refine run_bind_eq_ok.2 ⟨⟨a.text, none, type, some value⟩, left, ?_, rfl⟩
    rw [run_bind_of hattributes, run_bind_of (token_eq_ok.2 ⟨rfl, ha⟩), run_bind_of hsecond,
      run_bind_of (token_eq_ok.2 ⟨rfl, hc⟩), run_bind_of ht,
      run_bind_of ((optional_value he).2 ⟨value, hvalue, rfl⟩)]
    rfl

/-- The parameters of a function are those of its clause. -/
theorem function_clause {f o : Token} {ts left : List Token} {s : Signature} (hf : f.kind = .identifier)
    (ho : o.kind = .leftParen) (h : function.run (f :: o :: ts) = .ok (s, left)) :
    ∃ first after others, parameterUnlessClosed.run ts = .ok (first, after) ∧
      s.parameters = (first :: others).filterMap id := by
  have hgenerics : genericClause.run (o :: ts) = .ok (none, o :: ts) := optionally_skip (by simp [ho])
  obtain ⟨named, listing, listed, returning, returned, required, found, body, hn, hg, hp, -⟩ := signature_cases h
  rw [functionName_word hf, Except.ok.injEq, Prod.mk.injEq] at hn
  obtain ⟨-, rfl⟩ := hn
  rw [hgenerics, Except.ok.injEq, Prod.mk.injEq] at hg
  obtain ⟨-, rfl⟩ := hg
  obtain ⟨opener, inside, first, after, others, closer, he, hfirst, -, -, hs⟩ := parameterClause_cases hp
  obtain ⟨rfl, rfl⟩ := List.cons.inj he
  exact ⟨first, after, others, hfirst, hs⟩

end TestHooks.Swift
