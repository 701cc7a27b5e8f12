import TestHooks.Proofs.Receiver
import TestHooks.Proxy.Member

/-!
# Forwarding properties

The declaration of a forwarding property is read back as it is meant, unless a comment in its type swallows the rest of
a line. Then reading comes to a place where no declaration can go on (`Stuck`).
-/

namespace TestHooks.Proxy

open TestHooks.Swift TestHooks.Swift.Reader TestHooks.Text TestHooks.Reader

/-! ### What is expected -/

/-- The declaration that a forwarding property is, wherever it stands. -/
def forwardedProperty (isStatic : Bool) (typing : Typing) (p : Property) (position : Position) : Decl :=
  .variableList ⟨[], if isStatic then [⟨"static", none⟩] else [], position⟩ .varKeyword
    [{ name := p.name
       type := some (typing.resolve p)
       initializer := none
       accessors := some (if p.hasSetter then [.get, .set] else [.get])
       isPattern := false }]

/-- Elements that begin with a declaration on a line of its own, or with the end of a block. -/
def Opens (es : List Element) : Prop :=
  ∃ margin kind cs more, es = .lineBreak margin :: ⟨.lexeme kind, cs⟩ :: more ∧
    (kind = .rightBrace ∨
      kind = .identifier ∧ String.ofList cs ∈ ["static", "mutating", "var", "func"])

/-- Tokens with which no declaration begins. Where a block ends, `fs` is what follows it. -/
def Stuck (fs : List Element) (left : List Token) : Prop :=
  left = [] ∨ ∃ t more, left = t :: more ∧
    (t.kind = .rightBrace ∧ Reads false fs more ∨ t.kind = .identifier ∧ t.text ∈ ["get", "set", "return"])

/-- What comes of reading a member before `fs`. -/
def Outcome (fs : List Element) (expected : Position → Decl) (found : Option Decl) (left : List Token) : Prop :=
  (∃ position, found = some (expected position) ∧ Reads false fs left) ∨ Stuck fs left

/-- Lines of a member that is read as expected or not at all. -/
structure Forwarding (lines : List (List Char)) (expected : Position → Decl) (es : List Element) : Prop where
  page : Page lines es
  rises : Rises (bareTokens es)
  opens : Opens es
  outcome : ∀ {fs : List Element} {ts : List Token}, Opens fs → Rises (bareTokens fs) → Reads false (es ++ fs) ts →
    ∃ t more, ts = t :: more ∧ t.kind = .identifier ∧ ∀ {found : Option Decl} {left : List Token},
      declarationRun true t more = .ok (found, left) → Outcome fs expected found left

/-! ### Heads -/

/-- The elements of a keyword behind a modifier. -/
def headElements (modifier : Option String) (keyword : String) : List Element :=
  match modifier with
  | some m => [.word m.toList, .space, .word keyword.toList]
  | none => [.word keyword.toList]

def headText (modifier : Option String) (keyword : String) : List Char :=
  match modifier with
  | some m => m.toList ++ ' ' :: keyword.toList
  | none => keyword.toList

def headModifiers (modifier : Option String) : List Modifier :=
  (modifier.map fun m => ⟨m, none⟩).toList

section Heads

variable {modifier : Option String} {keyword : String}
  (hm : modifier = none ∨ modifier = some "static" ∨ modifier = some "mutating")
  (hk : keyword = "var" ∨ keyword = "func")

include hm hk

theorem head_spelling {text tail : List Char} {es : List Element} (h : Spelling text es tail)
    (ht : text.head? = some ' ') :
    Spelling (headText modifier keyword ++ text) (headElements modifier keyword ++ es) tail := by
  have hw : text.head?.any isWordChar = false := by
    rw [ht]
    decide
  have hkey : Name keyword.toList ∧ ∃ c cs, keyword.toList = c :: cs ∧ isBlank c = false := by
    rcases hk with rfl | rfl
    · exact ⟨.plain (by decide) (by decide), _, _, rfl, by decide⟩
    · exact ⟨.plain (by decide) (by decide), _, _, rfl, by decide⟩
  obtain ⟨hkey, c, cs, hc, hb⟩ := hkey
  have hs := h.word hkey hw
  have hsp := hs.space (by rw [hc, List.cons_append, List.head?_cons, Option.any_some, hb]; rfl)
  have hspace : isWordChar ' ' = false := by decide
  rcases hm with rfl | rfl | rfl
  · exact hs
  · have hn : Name "static".toList := .plain (by decide) (by decide)
    have := hsp.word hn hspace
    simpa [headText, headElements] using this
  · have hn : Name "mutating".toList := .plain (by decide) (by decide)
    have := hsp.word hn hspace
    simpa [headText, headElements] using this

/-- A modifier, if there is one, and a keyword are read as the head of a declaration. -/
theorem head_reads {broken : Bool} {es : List Element} {ts : List Token}
    (h : Reads broken (headElements modifier keyword ++ es) ts) :
    ∃ t more k rest, ts = t :: more ∧ t.kind = .identifier ∧
      (headFrom t).run (t :: more) = .ok (⟨[], headModifiers modifier, t.position⟩, k :: rest) ∧
      k.kind = .identifier ∧ k.text = keyword ∧ Reads false es rest := by
  have hword {k : Token} (htext : k.text = keyword) : modifierWords.contains k.text = false := by
    rw [htext]
    rcases hk with rfl | rfl <;> decide
  have hmod (m : String) (hmod : m = "static" ∨ m = "mutating")
      (h : Reads broken (headElements (some m) keyword ++ es) ts) :
      ∃ t more k rest, ts = t :: more ∧ t.kind = .identifier ∧
        (headFrom t).run (t :: more) = .ok (⟨[], headModifiers (some m), t.position⟩, k :: rest) ∧
        k.kind = .identifier ∧ k.text = keyword ∧ Reads false es rest := by
    obtain ⟨t, more, rfl, ht, h⟩ := reads_lexeme h
    obtain ⟨k, rest, rfl, hkt, h⟩ := reads_spaced h
    have htext := hkt.text
    have hx := ht.text
    rw [String.ofList_toList] at htext hx
    have hmodifier : modifierWords.contains t.text = true ∧ t.text ≠ "class" := by
      rw [hx]
      rcases hmod with rfl | rfl <;> decide
    refine ⟨t, k :: rest, k, rest, rfl, ht.kind, ?_, hkt.kind, htext, h⟩
    rw [headFrom_modifier hkt.kind (hword htext) ht.kind hmodifier.1 hmodifier.2, hx]
    rfl
  rcases hm with rfl | rfl | rfl
  · obtain ⟨k, rest, rfl, hkt, h⟩ := reads_lexeme h
    have htext := hkt.text
    rw [String.ofList_toList] at htext
    exact ⟨k, rest, k, rest, rfl, hkt.kind, headFrom_word hkt.kind (hword htext) rest, hkt.kind, htext, h⟩
  · exact hmod _ (.inl rfl) h
  · exact hmod _ (.inr rfl) h

end Heads

/-! ### Blocks -/

/-- The elements of a body on a line of its own and of the brace behind it. -/
def insideElements (margin margin' : List Char) (body : List Element) : List Element :=
  .lineBreak margin :: (body ++ [.lineBreak margin', .mark .rightBrace '\x7d'])

theorem inside_page {margin margin' text : List Char} {body : List Element} (hm : ∀ c ∈ margin, c = ' ')
    (hm' : ∀ c ∈ margin', c = ' ') (hb : text.head?.any (!isBlank ·) = true) (hs : Spelling text body []) :
    Page [margin ++ text, margin' ++ ['\x7d']] (insideElements margin margin' body) := by
  have hc : Spelling ['\x7d'] [.mark .rightBrace '\x7d'] [] := spelling_nil.mark rfl (by decide)
  exact Page.cons hm hb hs (Page.cons hm' (by decide) hc Page.nil)

theorem body_reads {broken : Bool} {margin : List Char} {body fs : List Element} {ts : List Token}
    (h : Reads broken (body ++ [.lineBreak margin, .mark .rightBrace '\x7d'] ++ fs) ts) :
    ∃ inside closer vs, ts = inside ++ closer :: vs ∧ Reads broken body inside ∧ closer.kind = .rightBrace ∧
      Reads false fs vs := by
  rw [List.append_assoc] at h
  obtain ⟨us, vs, before, rfl, hu, hv⟩ := reads_split h
  obtain ⟨closer, rest, rfl, hc, hr⟩ := reads_line hv
  exact ⟨us, closer, rest, rfl, hu, hc.kind, hr⟩

theorem inside_reads {broken : Bool} {margin margin' : List Char} {body fs : List Element} {ts : List Token}
    (h : Reads broken (insideElements margin margin' body ++ fs) ts) (hb : NoBraces (bareTokens body)) :
    ∃ inside closer vs, ts = inside ++ closer :: vs ∧ Reads true body inside ∧ NoBraces inside ∧
      closer.kind = .rightBrace ∧ Reads false fs vs := by
  have h' : Reads broken (commented [] ++ .lineBreak margin :: (body ++ [.lineBreak margin', .mark .rightBrace '\x7d'] ++ fs))
      ts := h
  obtain ⟨inside, closer, vs, rfl, hi, hc, hv⟩ := body_reads (reads_break h')
  rw [← reads_bare hi] at hb
  exact ⟨inside, closer, vs, rfl, hi, noBraces_bare hb, hc, hv⟩

/-- A word with a block behind it. -/
def blockElements (margin margin' margin'' : List Char) (word : String) (body : List Element) : List Element :=
  .lineBreak margin :: .word word.toList :: .space :: .mark .leftBrace '\x7b' :: insideElements margin' margin'' body

theorem block_page {margin margin' margin'' text : List Char} {word : String} {body : List Element}
    (hm : ∀ c ∈ margin, c = ' ') (hm' : ∀ c ∈ margin', c = ' ') (hm'' : ∀ c ∈ margin'', c = ' ')
    (hw : word = "get" ∨ word = "set") (hb : text.head?.any (!isBlank ·) = true) (hs : Spelling text body []) :
    Page [margin ++ (word ++ " \x7b").toList, margin' ++ text, margin'' ++ ['\x7d']]
      (blockElements margin margin' margin'' word body) := by
  have ho : Spelling ['\x7b'] [.mark .leftBrace '\x7b'] [] := spelling_nil.mark rfl (by decide)
  have hn : Name word.toList := by
    rcases hw with rfl | rfl
    · exact .plain (by decide) (by decide)
    · exact .plain (by decide) (by decide)
  have hl := (ho.space (by decide)).word hn (by decide)
  have hl' : Spelling (word ++ " \x7b").toList [.word word.toList, .space, .mark .leftBrace '\x7b'] [] := by
    rwa [String.toList_append]
  refine Page.cons hm ?_ hl' (inside_page hm' hm'' hb hs)
  rcases hw with rfl | rfl <;> decide

theorem block_rises {margin margin' margin'' : List Char} {word : String} {body : List Element}
    (hb : Rises (bareTokens body)) : Rises (bareTokens (blockElements margin margin' margin'' word body)) := by
  have hc : Rises (bareTokens [.lineBreak margin'', .mark .rightBrace '\x7d']) := ⟨0, rfl⟩
  have ho : Rises (bareTokens [.lineBreak margin, .word word.toList, .space, .mark .leftBrace '\x7b', .lineBreak margin']) :=
    ⟨0, rfl⟩
  have := ho.append (hb.append hc)
  rwa [← bareTokens_append, ← bareTokens_append] at this

theorem block_reads {broken : Bool} {margin margin' margin'' : List Char} {word : String} {body fs : List Element}
    {ts : List Token} (h : Reads broken (blockElements margin margin' margin'' word body ++ fs) ts)
    (hb : NoBraces (bareTokens body)) :
    ∃ t opener inside closer vs, ts = t :: opener :: (inside ++ closer :: vs) ∧ t.kind = .identifier ∧ t.text = word ∧
      t.newlineBefore = true ∧ opener.kind = .leftBrace ∧ Reads true body inside ∧ NoBraces inside ∧
      closer.kind = .rightBrace ∧ Reads false fs vs := by
  obtain ⟨t, more, rfl, ht, h⟩ := reads_line h
  obtain ⟨opener, rest, rfl, ho, h⟩ := reads_spaced h
  obtain ⟨inside, closer, vs, rfl, hi, hn, hc, hv⟩ := inside_reads h hb
  have htext := ht.text
  rw [String.ofList_toList] at htext
  exact ⟨t, opener, inside, closer, vs, rfl, ht.kind, htext, ht.newlineBefore, ho.kind, hi, hn, hc, hv⟩

/-! ### Accessors -/

theorem group_reads {opener closer : Token} {inside rest : List Token} (ho : opener.kind = .leftBrace)
    (hi : NoBraces inside) (hc : closer.kind = .rightBrace) :
    (group .rightBrace opener).run (inside ++ closer :: rest) = .ok (opener :: (inside ++ [closer]), rest) := by
  simp only [group, ho, split_of_noBraces hi hc rest]

theorem accessor_reads {a : Accessor} (ha : a = .get ∨ a = .set) {t opener closer : Token} {inside rest : List Token}
    (hk : t.kind = .identifier) (ht : t.text = a.text) (ho : opener.kind = .leftBrace) (hi : NoBraces inside)
    (hc : closer.kind = .rightBrace) :
    accessor.run (t :: opener :: (inside ++ closer :: rest)) = .ok (a, rest) := by
  have hattr : attributes.run (t :: opener :: (inside ++ closer :: rest)) =
      .ok ([], t :: opener :: (inside ++ closer :: rest)) := by
    exact whileNext_skip (by simp [hk])
  have hskip : (skipWhile (ε := Fault) (·.isOneOf accessorPrefixes)).run (t :: opener :: (inside ++ closer :: rest)) =
      .ok ((), t :: opener :: (inside ++ closer :: rest)) := by
    have hn : accessorPrefixes.contains a.text = false := by rcases ha with rfl | rfl <;> decide
    have hf : t.isOneOf accessorPrefixes = false := by rw [Token.isOneOf, ht, hn, Bool.and_false]
    simp only [skipWhile, List.dropWhile_cons, hf, Bool.false_eq_true, if_false]
  have hnamed : accessorNamed t = pure a := by
    have hf : accessorOf? t = some a := by
      rcases ha with rfl | rfl <;> simp [accessorOf?, hk, ht] <;> decide
    simp only [accessorNamed, hf]
  have heff : effects.run (opener :: (inside ++ closer :: rest)) = .ok ([], opener :: (inside ++ closer :: rest)) := by
    have hf : (effectOf? opener).isSome = false := by simp [effectOf?, ho]
    unfold effects
    rw [run_bind_eq_ok]
    exact ⟨[], _, whileNext_skip (by simp [hf]), rfl⟩
  unfold accessor
  rw [run_bind_eq_ok]
  refine ⟨_, _, hattr, run_bind_eq_ok.2 ⟨_, _, hskip, run_bind_eq_ok.2 ⟨t, _, token_eq_ok.2 ⟨rfl, hk⟩, ?_⟩⟩⟩
  rw [hnamed, run_bind_eq_ok]
  refine ⟨a, _, rfl, run_bind_eq_ok.2 ⟨none, _, optionally_skip (by simp [ho]), run_bind_eq_ok.2 ⟨_, _, heff, ?_⟩⟩⟩
  rw [run_bind_eq_ok]
  exact ⟨_, _, optionally_take (by simp [ho]) (group_reads ho hi hc), rfl⟩

theorem accessors_stop {closer : Token} {rest : List Token} (hc : closer.kind = .rightBrace) :
    (untilNext (·.kind == .rightBrace) accessor strict_accessor).run (closer :: rest) = .ok ([], closer :: rest) := by
  simp only [untilNext]
  rw [untilNextRun, if_pos (by simp [hc])]

theorem accessors_step {ts after left : List Token} {a : Accessor} {others : List Accessor}
    (ht : ts.head?.any (·.kind == .rightBrace) = false) (ha : accessor.run ts = .ok (a, after))
    (ho : (untilNext (·.kind == .rightBrace) accessor strict_accessor).run after = .ok (others, left)) :
    (untilNext (·.kind == .rightBrace) accessor strict_accessor).run ts = .ok (a :: others, left) := by
  simp only [untilNext] at ho ⊢
  rw [untilNextRun, if_neg (by simp [ht])]
  split
  · next he =>
    rw [ha] at he
    cases he
    rw [ho]
  · next he =>
    rw [ha] at he
    cases he

/-- A block that begins with the getter lists its accessors. -/
theorem accessorBlock_listed {opener get brace closer : Token} {more rest : List Token} {found : List Accessor}
    (hk : get.kind = .identifier) (ht : get.text = "get") (hb : brace.kind = .leftBrace)
    (hf : (untilNext (·.kind == .rightBrace) accessor strict_accessor).run (get :: brace :: more) =
      .ok (found, closer :: rest)) (hc : closer.kind = .rightBrace) :
    (accessorBlock opener).run (get :: brace :: more) = .ok (found, rest) := by
  have hl : listsAccessors (get :: brace :: more) = true := by
    have hn : accessorPrefixes.contains "get" = false := by decide
    have hd : (get.kind == .atWord || get.isOneOf accessorPrefixes) = false := by
      rw [Token.isOneOf, ht, hn, hk]
      rfl
    have ha : accessorOf? get = some .get := by
      rw [accessorOf?, if_pos hk, ht]
      decide
    simp only [listsAccessors, List.dropWhile_cons, hd, Bool.false_eq_true, if_false, ha, hb]
    decide
  unfold accessorBlock
  rw [run_bind_eq_ok]
  refine ⟨true, get :: brace :: more, by simp only [look, hl], ?_⟩
  rw [if_pos rfl]
  unfold listedAccessors
  rw [run_bind_eq_ok]
  refine ⟨_, _, hf, run_bind_eq_ok.2 ⟨closer, rest, token_eq_ok.2 ⟨rfl, hc⟩, rfl⟩⟩

/-- A block that begins with another word is a getter. -/
theorem accessorBlock_plain {opener first closer : Token} {inside rest : List Token} (ho : opener.kind = .leftBrace)
    (hk : first.kind = .identifier) (ht : first.text = "return") (hi : NoBraces (first :: inside))
    (hc : closer.kind = .rightBrace) :
    (accessorBlock opener).run (first :: inside ++ closer :: rest) = .ok ([.get], rest) := by
  have hl : listsAccessors (first :: inside ++ closer :: rest) = false := by
    have hn : accessorPrefixes.contains "return" = false := by decide
    have hd : (first.kind == .atWord || first.isOneOf accessorPrefixes) = false := by
      rw [Token.isOneOf, ht, hn, hk]
      rfl
    have ha : accessorOf? first = none := by
      rw [accessorOf?, if_pos hk, ht]
      decide
    simp only [listsAccessors, List.cons_append, List.dropWhile_cons, hd, Bool.false_eq_true, if_false, ha]
  unfold accessorBlock
  rw [run_bind_eq_ok]
  refine ⟨false, first :: inside ++ closer :: rest, by simp only [look, hl], ?_⟩
  rw [if_neg (by simp), run_bind_eq_ok]
  exact ⟨_, _, group_reads ho hi hc, rfl⟩

/-! ### Properties -/

/-- The way in which lines are written, each with its indentation. -/
def Indents (write : Line → List Char) : Prop :=
  ∀ l, ∃ margin, (∀ c ∈ margin, c = ' ') ∧ write l = margin ++ l.text.toList

/-- The elements of the accessors of a forwarding property, and of the brace behind them. -/
inductive AccessorElements (hasSetter : Bool) : List Element → Prop
  | intro {margin m₁ m₂ m₃ : List Char} {body setter : List Element}
    (hb : NoBraces (bareTokens (.word "return".toList :: body)))
    (hs : (hasSetter = false ∧ setter = []) ∨ (hasSetter = true ∧ ∃ m₁ m₂ m₃ value, NoBraces (bareTokens value) ∧
      setter = blockElements m₁ m₂ m₃ "set" value)) :
    AccessorElements hasSetter (blockElements m₁ m₂ m₃ "get" (.word "return".toList :: body) ++
      (setter ++ [.lineBreak margin, .mark .rightBrace '\x7d']))

theorem block_lines {write : Line → List Char} (hw : Indents write) {word body : String} {es : List Element}
    (hword : word = "get" ∨ word = "set") (hb : body.toList.head?.any (!isBlank ·) = true)
    (hs : Spelling body.toList es []) (hr : Rises (bareTokens es)) :
    ∃ m₁ m₂ m₃, Page ([⟨1, word ++ " \x7b"⟩, ⟨2, body⟩, ⟨1, "\x7d"⟩].map write) (blockElements m₁ m₂ m₃ word es) ∧
      Rises (bareTokens (blockElements m₁ m₂ m₃ word es)) := by
  obtain ⟨m₁, h₁, hw₁⟩ := hw ⟨1, word ++ " \x7b"⟩
  obtain ⟨m₂, h₂, hw₂⟩ := hw ⟨2, body⟩
  obtain ⟨m₃, h₃, hw₃⟩ := hw ⟨1, "\x7d"⟩
  refine ⟨m₁, m₂, m₃, ?_, block_rises hr⟩
  simp only [List.map_cons, List.map_nil, hw₁, hw₂, hw₃]
  exact block_page h₁ h₂ h₃ hword hb hs

theorem closing_line {write : Line → List Char} (hw : Indents write) (level : Nat) :
    ∃ margin, Page ([⟨level, "\x7d"⟩].map write) [.lineBreak margin, .mark .rightBrace '\x7d'] := by
  obtain ⟨margin, hm, hx⟩ := hw ⟨level, "\x7d"⟩
  have hc : Spelling ['\x7d'] [.mark .rightBrace '\x7d'] [] := spelling_nil.mark rfl (by decide)
  refine ⟨margin, ?_⟩
  simp only [List.map_cons, List.map_nil, hx]
  exact Page.cons hm (by decide) hc Page.nil

section Accessors

variable {write : Line → List Char} (hw : Indents write) {receiver name : String} {res : List Element}
  (hn : Name name.toList) (hr : Receiver receiver.toList res)

include hr

theorem path_begins : (receiver ++ "." ++ name).toList.head?.any (!isBlank ·) = true := by
  simpa using begins_before hr.begins ('.' :: name.toList)

theorem path_nests : nests [] (bareTokens (res ++ [.mark .dot '.', .word name.toList])) = true := by
  rw [bareTokens_append]
  exact nests_append hr.nests rfl

include hn

theorem path_spelling : Spelling (receiver ++ "." ++ name).toList (res ++ [.mark .dot '.', .word name.toList]) [] := by
  have := hr.member hn spelling_nil rfl
  simpa using this

/-- The elements of an assignment to a member. -/
theorem value_elements : ∃ value, Spelling (receiver ++ "." ++ name ++ " = newValue").toList value [] ∧
    NoBraces (bareTokens value) ∧ Rises (bareTokens value) := by
  have hv : Name "newValue".toList := .plain (by decide) (by decide)
  have h₁ := ((spelling_nil.word hv rfl).space (by decide)).operator (.inl rfl) (by decide)
  have h₂ := hr.member hn (h₁.space (by decide)) (by decide)
  refine ⟨_, by simpa using h₂, ?_, ?_⟩
  · rw [bareTokens_append]
    have hrest : NoBraces [⟨.dot, ".", "", .origin⟩, ⟨.identifier, String.ofList name.toList, "", .origin⟩,
        ⟨.operator, "=", "", .origin⟩, ⟨.identifier, "newValue", "", .origin⟩] := by
      simp [noBraces_cons, noBraces_nil]
    exact (nests_noBraces hr.nests).append hrest
  · rw [bareTokens_append]
    exact Rises.append ⟨0, nests_rise hr.nests⟩ ⟨0, rfl⟩

include hw

theorem accessor_elements {target : Target} {typing : Typing} {p : Property} (ht : target.receiver = receiver)
    (hp : p.name = name) :
    ∃ as, Page ((propertyLines target typing p).tail.map write) as ∧ AccessorElements p.hasSetter as ∧
      Rises (bareTokens as) := by
  have hpath := path_spelling hn hr
  have hbegins : (receiver ++ "." ++ name).toList.head?.any (!isBlank ·) = true := path_begins hr
  have hnests : nests [] (bareTokens (res ++ [.mark .dot '.', .word name.toList])) = true := path_nests hr
  generalize res ++ [.mark .dot '.', .word name.toList] = path at hpath hnests
  have hrises : Rises (bareTokens path) := ⟨0, nests_rise hnests⟩
  have hreturn : Spelling ("return " ++ (receiver ++ "." ++ name)).toList
      (.word "return".toList :: .space :: path) [] := by
    have hn : Name "return".toList := .plain (by decide) (by decide)
    have := (hpath.space hbegins).word hn rfl
    simpa using this
  have hword : Rises [⟨.identifier, "return", "", .origin⟩] := ⟨0, rfl⟩
  have hfirst : NoBraces [⟨.identifier, "return", "", .origin⟩] := by simp [noBraces_cons, noBraces_nil]
  have hfree : NoBraces (bareTokens (.word "return".toList :: .space :: path)) := hfirst.append (nests_noBraces hnests)
  obtain ⟨m₁, m₂, m₃, hpage, hrise⟩ := block_lines hw (.inl rfl) (by rw [String.toList_append]; rfl) hreturn
    (hword.append hrises)
  obtain ⟨margin, hclose⟩ := closing_line hw 0
  have hend : Rises (bareTokens [.lineBreak margin, .mark .rightBrace '\x7d']) := ⟨0, rfl⟩
  cases hs : p.hasSetter with
  | false =>
    have has : AccessorElements false (blockElements m₁ m₂ m₃ "get" (.word "return".toList :: .space :: path) ++
        ([] ++ [.lineBreak margin, .mark .rightBrace '\x7d'])) := .intro hfree (.inl ⟨rfl, rfl⟩)
    refine ⟨_, ?_, has, ?_⟩
    · have := hpage.append hclose
      simpa [propertyLines, hs, ht, hp] using this
    · rw [bareTokens_append]
      exact hrise.append hend
  | true =>
    obtain ⟨value, hvalue, hvfree, hvrise⟩ := value_elements hn hr
    have hvbegins : (receiver ++ "." ++ name ++ " = newValue").toList.head?.any (!isBlank ·) = true := by
      simpa using begins_before hr.begins ('.' :: (name.toList ++ " = newValue".toList))
    obtain ⟨n₁, n₂, n₃, hpage', hrise'⟩ := block_lines hw (.inr rfl) hvbegins hvalue hvrise
    have has : AccessorElements true (blockElements m₁ m₂ m₃ "get" (.word "return".toList :: .space :: path) ++
        (blockElements n₁ n₂ n₃ "set" value ++ [.lineBreak margin, .mark .rightBrace '\x7d'])) :=
      .intro hfree (.inr ⟨rfl, n₁, n₂, n₃, value, hvfree, rfl⟩)
    refine ⟨_, ?_, has, ?_⟩
    · have := hpage.append (hpage'.append hclose)
      simpa [propertyLines, hs, ht, hp] using this
    · rw [bareTokens_append, bareTokens_append]
      exact hrise.append (hrise'.append hend)

end Accessors

/-! ### Behind the type of a binding -/

/-- What is read behind the type of the first binding. -/
def bindingsRest : Swift.Reader Unit := do
  let _ ← optionally isAssignment fun _ => expressionText
  let _ ← optionally (·.kind == .leftBrace) accessorBlock
  let _ ← whileNext (·.kind == .comma) fun _ => binding
  pure ()

theorem bindings_cases {name colon : Token} (hn : name.kind = .identifier) (hc : colon.kind = .colon)
    {ts left : List Token} {bs : List Binding} (h : (byCommas binding).run (name :: colon :: ts) = .ok (bs, left)) :
    bindingsRest.run (splitType [] 0 none ts).2 = .ok ((), left) := by
  obtain ⟨first, after, others, hfirst, hothers, -⟩ := byCommas_cases h
  obtain ⟨named, typed, valued, hname, htype, hvalue, hblock⟩ := binding_cases hfirst
  rw [bindingName_word hn, Except.ok.injEq, Prod.mk.injEq] at hname
  obtain ⟨-, rfl⟩ := hname
  rcases optionally_cases htype with ⟨hx, -⟩ | ⟨t, more, text, he, -, htext, -⟩
  · simp [hc] at hx
  cases he
  obtain ⟨head, taken, hsplit, -⟩ := phraseBy_eq_ok.1 htext
  rw [hsplit]
  exact run_bind_eq_ok.2 ⟨_, _, hvalue, run_bind_eq_ok.2 ⟨_, _, hblock, run_bind_eq_ok.2 ⟨_, _, hothers, rfl⟩⟩⟩

theorem bindingsRest_stop {t : Token} (h : t.kind = .rightBrace ∨ t.kind = .identifier) (ts : List Token) :
    bindingsRest.run (t :: ts) = .ok ((), t :: ts) := by
  rw [bindingsRest, run_bind_of (optionally_skip ?_), run_bind_of (optionally_skip ?_), run_bind_of (whileNext_skip ?_)]
  · rfl
  all_goals rcases h with h | h <;> simp [isAssignment, h]

theorem bindingsRest_block {opener t : Token} {inside ts : List Token} {accessors : List Accessor}
    (ho : opener.kind = .leftBrace) (hblock : (accessorBlock opener).run inside = .ok (accessors, t :: ts))
    (h : t.kind = .rightBrace ∨ t.kind = .identifier) : bindingsRest.run (opener :: inside) = .ok ((), t :: ts) := by
  rw [bindingsRest, run_bind_of (optionally_skip ?_), run_bind_of (optionally_take ?_ hblock),
    run_bind_of (whileNext_skip ?_)]
  · rfl
  · rcases h with h | h <;> simp [h]
  · simp [ho]
  · simp [isAssignment, ho]

/-! ### Reading properties -/

section Reading

variable {hasSetter : Bool} {as fs : List Element} (ha : AccessorElements hasSetter as)

include ha

theorem accessors_read {opener : Token} {ts : List Token} (h : Reads false (as ++ fs) ts) :
    ∃ vs, (accessorBlock opener).run ts = .ok (if hasSetter then [.get, .set] else [.get], vs) ∧ Reads false fs vs := by
  obtain @⟨margin, m₁, m₂, m₃, body, setter, hb, hs⟩ := ha
  rw [List.append_assoc] at h
  obtain ⟨get, brace, inside, closer, vs, rfl, hk, ht, -, ho, -, hn, hc, h⟩ := block_reads h hb
  have hget (rest : List Token) : accessor.run (get :: brace :: (inside ++ closer :: rest)) = .ok (.get, rest) :=
    accessor_reads (.inl rfl) hk ht ho hn hc
  rcases hs with ⟨rfl, rfl⟩ | ⟨rfl, n₁, n₂, n₃, value, hv, rfl⟩
  · obtain ⟨last, rest, rfl, hl, h⟩ := reads_line h
    refine ⟨rest, accessorBlock_listed hk ht ho ?_ hl.kind, h⟩
    exact accessors_step (by simp [hk]) (hget _) (accessors_stop hl.kind)
  · rw [List.append_assoc] at h
    obtain ⟨set, brace', inside', closer', vs', rfl, hk', ht', -, ho', -, hn', hc', h⟩ := block_reads h hv
    obtain ⟨last, rest, rfl, hl, h⟩ := reads_line h
    refine ⟨rest, accessorBlock_listed hk ht ho ?_ hl.kind, h⟩
    have hset : accessor.run (set :: brace' :: (inside' ++ closer' :: last :: rest)) = .ok (.set, last :: rest) :=
      accessor_reads (.inr rfl) hk' ht' ho' hn' hc'
    exact accessors_step (by simp [hk]) (hget _) (accessors_step (by simp [hk']) hset (accessors_stop hl.kind))

theorem binding_reads {type : String} {es : List Element} (ht : TypeSpelling [] type es []) {name colon : Token}
    (hn : name.kind = .identifier) (hc : colon.kind = .colon) {ts : List Token}
    (h : Reads false (es ++ .space :: .mark .leftBrace '\x7b' :: (as ++ fs)) ts) :
    ∃ vs, binding.run (name :: colon :: ts) = .ok (⟨name.text, some type, none,
      some (if hasSetter then [.get, .set] else [.get]), false⟩, vs) ∧ Reads false fs vs := by
  obtain ⟨vs, hv, htype⟩ := reads_type ht h
  obtain ⟨opener, more, rfl, ho, h⟩ := reads_spaced hv
  have hopen := ho.kind
  have htype := htype (by simp [Token.endsType, hopen])
  obtain ⟨vs, hblock, hv⟩ := accessors_read ha h
  refine ⟨vs, ?_, hv⟩
  unfold binding
  rw [run_bind_eq_ok]
  refine ⟨_, _, bindingName_word hn _, run_bind_eq_ok.2 ⟨some type, _, optionally_take (by simp [hc]) htype, ?_⟩⟩
  rw [run_bind_eq_ok]
  refine ⟨none, _, optionally_skip (by simp [isAssignment, hopen]), run_bind_eq_ok.2 ⟨some _, _, ?_, rfl⟩⟩
  exact optionally_take (by simp [hopen]) hblock

/-- A comment in the type of a property swallows the brace of its accessors. -/
theorem binding_stuck {type : String} {es : List Element} {tail line : List Char} (ht : TypeSpelling [] type es tail)
    {name colon : Token} (hn : name.kind = .identifier) (hc : colon.kind = .colon) {ts left : List Token}
    (hr : Rises (bareTokens (as ++ fs))) (h : Reads false (es ++ (commented line ++ (as ++ fs))) ts) {bs : List Binding}
    (hb : (byCommas binding).run (name :: colon :: ts) = .ok (bs, left)) : Stuck fs left := by
  have hrest := bindings_cases hn hc hb
  obtain @⟨margin, m₁, m₂, m₃, body, setter, hfree, hs⟩ := ha
  rw [List.append_assoc] at h hr
  obtain ⟨us, vs, rfl, -, hv, hcase | ⟨last, hcase⟩⟩ := reads_commented_type ht h hr
  · -- everything to the end is taken for the type
    rw [hcase] at hrest
    exact .inl (List.suffix_nil.1 (Reader.suffix _ hrest))
  rw [hcase] at hrest
  obtain ⟨get, rest, rfl, hget, hv⟩ := reads_lexeme hv
  obtain ⟨opener, rest, rfl, ho, hv⟩ := reads_spaced hv
  have hk := hget.kind
  have hopen := ho.kind
  have htext : get.text = "get" := by rw [hget.text, String.ofList_toList]
  by_cases hlast : last.continuesType = true
  · -- the type goes on to the brace behind the word
    have hsplit : splitType [] 0 (some last) (get :: opener :: rest) = ([get], opener :: rest) := by
      have hend : get.endsType = false := by simp [Token.endsType, hk]
      have hdepth : typeDepth 0 get = 0 := by simp [typeDepth, hk]
      rw [splitType, if_neg, hdepth, splitType, if_pos]
      · simp [Token.endsType, hopen]
      · simp [hend, Token.isOneOf, Token.breaksType, hlast]
    rw [hsplit] at hrest
    obtain ⟨inside, closer, vs, rfl, hin, hnb, hcl, hafter⟩ := inside_reads hv hfree
    obtain ⟨word, inside, rfl, hword, -⟩ := reads_lexeme hin
    have hblock := @accessorBlock_plain opener word closer inside vs hopen hword.kind
      (by rw [hword.text, String.ofList_toList]) hnb hcl
    rcases hs with ⟨-, rfl⟩ | ⟨-, n₁, n₂, n₃, value, hvb, rfl⟩
    · obtain ⟨close, rest, rfl, hcs, hfs⟩ := reads_line hafter
      rw [bindingsRest_block hopen hblock (.inl hcs.kind)] at hrest
      cases hrest
      exact .inr ⟨close, rest, rfl, .inl ⟨hcs.kind, hfs⟩⟩
    · rw [List.append_assoc] at hafter
      obtain ⟨set, brace, inside', closer', vs', rfl, hsk, hst, -⟩ := block_reads hafter hvb
      rw [bindingsRest_block hopen hblock (.inr hsk)] at hrest
      cases hrest
      exact .inr ⟨set, _, rfl, .inr ⟨hsk, by simp [hst]⟩⟩
  · -- the type ends at the line break
    have hgoes : get.continuesType = false := by simp [Token.continuesType, hk]
    rw [split_broken hget.newlineBefore (Bool.eq_false_iff.2 hlast) hgoes, bindingsRest_stop (.inr hk)] at hrest
    cases hrest
    exact .inr ⟨get, _, rfl, .inr ⟨hk, by simp [htext]⟩⟩

end Reading

theorem opens_reads {broken : Bool} {fs : List Element} {ts : List Token} (ho : Opens fs) (h : Reads broken fs ts) :
    ∃ t more, ts = t :: more ∧ t.newlineBefore = true ∧ (t.kind = .rightBrace ∨
      t.kind = .identifier ∧ t.text ∈ ["static", "mutating", "var", "func"]) := by
  obtain ⟨margin, kind, cs, more, rfl, hk⟩ := ho
  obtain ⟨t, rest, rfl, ht, -⟩ := reads_line h
  refine ⟨t, rest, rfl, ht.newlineBefore, ?_⟩
  rw [ht.kind, ht.text]
  exact hk

theorem rises_append {es fs : List Element} (he : Rises (bareTokens es)) (hf : Rises (bareTokens fs)) :
    Rises (bareTokens (es ++ fs)) := by
  rw [bareTokens_append]
  exact he.append hf

theorem rises_commented (tail : List Char) : Rises (bareTokens (commented tail)) := by
  unfold commented
  split <;> exact ⟨0, rfl⟩

/-! ### First lines -/

/-- The elements of a line that begins with a keyword, and of the lines behind it. -/
def headedElements (margin : List Char) (modifier : Option String) (keyword : String) (line rest : List Element) :
    List Element :=
  .lineBreak margin :: (headElements modifier keyword ++ (line ++ rest))

section Headed

variable {modifier : Option String} {keyword : String}
  (hm : modifier = none ∨ modifier = some "static" ∨ modifier = some "mutating")
  (hk : keyword = "var" ∨ keyword = "func")

include hm hk

theorem headed_page {write : Line → List Char} (hw : Indents write) {level : Nat} {line : String} {more : List Line}
    {text tail : List Char} {es rest : List Element} (hx : line.toList = headText modifier keyword ++ text)
    (hs : Spelling text es tail) (ht : text.head? = some ' ') (hp : Page (more.map write) rest) :
    ∃ margin, Page ((⟨level, line⟩ :: more).map write)
      (headedElements margin modifier keyword es (commented tail ++ rest)) := by
  obtain ⟨margin, hmargin, hline⟩ := hw ⟨level, line⟩
  have hb : line.toList.head?.any (!isBlank ·) = true := by
    rw [hx]
    rcases hm with rfl | rfl | rfl <;> rcases hk with rfl | rfl <;> rfl
  have hl := head_spelling hm hk hs ht
  rw [← hx] at hl
  have := Page.cons hmargin hb hl hp
  rw [← hline, List.append_assoc] at this
  exact ⟨margin, this⟩

theorem headed_opens (margin : List Char) (line rest : List Element) :
    Opens (headedElements margin modifier keyword line rest) := by
  rcases hm with rfl | rfl | rfl
  · refine ⟨_, _, _, _, rfl, .inr ⟨rfl, ?_⟩⟩
    rcases hk with rfl | rfl <;> decide
  · exact ⟨_, _, _, _, rfl, .inr ⟨rfl, by decide⟩⟩
  · exact ⟨_, _, _, _, rfl, .inr ⟨rfl, by decide⟩⟩

omit hm hk in
theorem headed_rises (margin : List Char) {line rest : List Element} (hl : Rises (bareTokens line))
    (hr : Rises (bareTokens rest)) : Rises (bareTokens (headedElements margin modifier keyword line rest)) := by
  have hh : Rises (bareTokens (headElements modifier keyword)) := by
    cases modifier <;> exact ⟨0, rfl⟩
  exact rises_append hh (rises_append hl hr)

theorem headed_reads {broken : Bool} {margin : List Char} {line rest fs : List Element} {ts : List Token}
    (h : Reads broken (headedElements margin modifier keyword line rest ++ fs) ts) :
    ∃ t more k left, ts = t :: more ∧ t.kind = .identifier ∧
      (headFrom t).run (t :: more) = .ok (⟨[], headModifiers modifier, t.position⟩, k :: left) ∧
      k.kind = .identifier ∧ k.text = keyword ∧ Reads false (line ++ (rest ++ fs)) left := by
  have h' : Reads broken (commented [] ++ .lineBreak margin :: (headElements modifier keyword ++ (line ++ (rest ++ fs)))) ts := by
    simpa [headedElements, commented] using h
  exact head_reads hm hk (reads_break h')

end Headed

/-- What stands between the keyword of a property and its type. -/
def nameElements (name : String) : List Element :=
  [.space, .word name.toList, .mark .colon ':', .space]

theorem name_spelling {name : String} (hn : Name name.toList) {text tail : List Char} {es : List Element}
    (h : Spelling text es tail) (hb : text.head?.any (!isBlank ·) = true) :
    Spelling (' ' :: (name.toList ++ ':' :: ' ' :: text)) (nameElements name ++ es) tail := by
  have hd : ':' = '.' → (' ' :: text).head? ≠ some '.' := nofun
  have h₁ := ((h.space hb).mark (show TokenKind.mark? .colon = some ':' from rfl) hd).word hn rfl
  refine h₁.space ?_
  obtain ⟨c, cs, hc, -, -, -, hbl⟩ := name_begins hn
  rw [hc, List.cons_append, List.head?_cons, Option.any_some, hbl]
  rfl

/-- The first line of a forwarding property. -/
theorem property_text (target : Target) (typing : Typing) (p : Property) :
    (target.qualifier ++ "var " ++ p.name ++ ": " ++ typing.resolve p ++ " \x7b").toList =
      headText (if target.isStatic then some "static" else none) "var" ++
        ' ' :: (p.name.toList ++ ':' :: ' ' :: ((typing.resolve p).toList ++ [' ', '\x7b'])) := by
  cases h : target.isStatic <;> simp [Target.qualifier, headText, h]

/-- A property is read by its bindings; the first of them has the name and the colon that are written. -/
theorem property_reads {modifier : Option String}
    (hm : modifier = none ∨ modifier = some "static" ∨ modifier = some "mutating") {broken : Bool} {margin : List Char}
    {name : String} {es rest fs : List Element} {ts : List Token}
    (h : Reads broken (headedElements margin modifier "var" (nameElements name ++ es) rest ++ fs) ts) :
    ∃ t more n colon after, ts = t :: more ∧ t.kind = .identifier ∧ n.kind = .identifier ∧ n.text = name ∧
      colon.kind = .colon ∧ Reads false (es ++ (rest ++ fs)) after ∧ ∀ {found : Option Decl} {left : List Token},
        declarationRun true t more = .ok (found, left) → ∃ bs, (byCommas binding).run (n :: colon :: after) = .ok (bs, left) ∧
          found = some (.variableList ⟨[], headModifiers modifier, t.position⟩ .varKeyword bs) := by
  obtain ⟨t, more, k, left, rfl, ht, hh, hk, hv, h₁⟩ := headed_reads hm (.inl rfl) h
  rw [List.append_assoc] at h₁
  obtain ⟨n, left, rfl, hn, h₂⟩ := reads_spaced h₁
  obtain ⟨colon, left, rfl, hcolon, h₃⟩ := reads_lexeme h₂
  refine ⟨t, more, n, colon, left, rfl, ht, hn.kind, ?_, hcolon.kind, reads_space h₃, variable_cases ht hh hk hv⟩
  rw [hn.text, String.ofList_toList]

section Property

variable {write : Line → List Char} (hw : Indents write) {target : Target} {typing : Typing} {p : Property}
  {tes as : List Element} {tail : List Char} (hn : Name p.name.toList) (ht : TypeSpelling [] (typing.resolve p) tes tail)
  (hpage : Page ((propertyLines target typing p).tail.map write) as) (has : AccessorElements p.hasSetter as)
  (hrises : Rises (bareTokens as)) {modifier : Option String}
  (hm : modifier = none ∨ modifier = some "static" ∨ modifier = some "mutating")
  (hmod : modifier = if target.isStatic then some "static" else none)

include hw hn ht hpage has hrises hm hmod

/-- A property whose type is read to its end is read as expected. -/
theorem property_expected (htail : tail = []) :
    ∃ es, Forwarding ((propertyLines target typing p).map write) (forwardedProperty target.isStatic typing p) es := by
  subst htail
  have hmods : headModifiers modifier = if target.isStatic then [⟨"static", none⟩] else [] := by
    rw [hmod]
    cases target.isStatic <;> rfl
  have hbrace : Spelling [' ', '\x7b'] [.space, .mark .leftBrace '\x7b'] [] :=
    (spelling_nil.mark rfl (by decide)).space (by decide)
  have htext := property_text target typing p
  rw [← hmod] at htext
  have hnames : Rises (bareTokens (nameElements p.name)) := ⟨0, rfl⟩
  have hs := name_spelling hn (ht.append hbrace rfl) (begins_before ht.begins [' ', '\x7b'])
  obtain ⟨margin, hp⟩ := headed_page hm (.inl rfl) hw htext hs rfl hpage
  refine ⟨_, hp, ?_, headed_opens hm (.inl rfl) _ _ _, ?_⟩
  · exact headed_rises margin (rises_append hnames (rises_append ht.rises ⟨0, rfl⟩)) hrises
  · intro fs ts ho _ h
    obtain ⟨t, more, n, colon, after, rfl, hkt, hkn, hname, hcolon, hafter, hcases⟩ := property_reads hm h
    refine ⟨t, more, rfl, hkt, fun {found rest} hrun => .inl ⟨t.position, ?_⟩⟩
    obtain ⟨bs, hbs, rfl⟩ := hcases hrun
    have htype : Reads false (tes ++ .space :: .mark .leftBrace '\x7b' :: (as ++ fs)) after := by
      simpa [commented] using hafter
    obtain ⟨vs, hb, hvs⟩ := binding_reads has ht hkn hcolon htype
    obtain ⟨v, more', rfl, -, hv⟩ := opens_reads ho hvs
    have hcomma : (v :: more').head?.any (·.kind == .comma) = false := by
      rcases hv with hv | ⟨hv, -⟩ <;> simp [hv]
    rw [byCommas_one hb hcomma] at hbs
    cases hbs
    exact ⟨by rw [forwardedProperty, hmods, hname], hvs⟩

/-- A property whose type ends in a comment loses the brace of its accessors to it. -/
theorem property_swallowed (htail : tail ≠ []) :
    ∃ es, Forwarding ((propertyLines target typing p).map write) (forwardedProperty target.isStatic typing p) es := by
  have htext := property_text target typing p
  rw [← hmod] at htext
  have hnames : Rises (bareTokens (nameElements p.name)) := ⟨0, rfl⟩
  have hs := name_spelling hn (ht.swallow htail (show Separated [' ', '\x7b'] from rfl) (by decide))
    (begins_before ht.begins [' ', '\x7b'])
  obtain ⟨margin, hp⟩ := headed_page hm (.inl rfl) hw htext hs rfl hpage
  refine ⟨_, hp, ?_, headed_opens hm (.inl rfl) _ _ _, ?_⟩
  · exact headed_rises margin (rises_append hnames ht.rises) (rises_append (rises_commented _) hrises)
  · intro fs ts _ hrf h
    obtain ⟨t, more, n, colon, after, rfl, hkt, hkn, -, hcolon, hafter, hcases⟩ := property_reads hm h
    refine ⟨t, more, rfl, hkt, fun {found rest} hrun => .inr ?_⟩
    obtain ⟨bs, hbs, -⟩ := hcases hrun
    rw [List.append_assoc] at hafter
    exact binding_stuck has ht hkn hcolon (rises_append hrises hrf) hafter hbs

end Property

/-- A forwarding property is read as expected, or it gets stuck. -/
theorem property_forwarding {write : Line → List Char} (hw : Indents write) {target : Target} {typing : Typing} {p : Property}
    {res : List Element} (hn : Name p.name.toList) (ht : TypeText [] (typing.resolve p))
    (hr : Receiver target.receiver.toList res) :
    ∃ es, Forwarding ((propertyLines target typing p).map write) (forwardedProperty target.isStatic typing p) es := by
  obtain ⟨tes, tail, ht⟩ := ht
  obtain ⟨as, hpage, has, hrises⟩ : ∃ as, Page ((propertyLines target typing p).tail.map write) as ∧
      AccessorElements p.hasSetter as ∧ Rises (bareTokens as) := accessor_elements hw hn hr rfl rfl
  obtain ⟨modifier, hm, hmod⟩ : ∃ modifier, (modifier = none ∨ modifier = some "static" ∨ modifier = some "mutating") ∧
      modifier = if target.isStatic then some "static" else none := by
    cases target.isStatic
    · exact ⟨none, .inl rfl, rfl⟩
    · exact ⟨some "static", .inr (.inl rfl), rfl⟩
  by_cases htail : tail = []
  · exact property_expected hw hn ht hpage has hrises hm hmod htail
  · exact property_swallowed hw hn ht hpage has hrises hm hmod htail

end TestHooks.Proxy
