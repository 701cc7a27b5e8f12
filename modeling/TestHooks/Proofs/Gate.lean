import Mathlib.Data.List.Zip
import TestHooks.Proofs.Openings
import TestHooks.Proofs.Outcomes
import TestHooks.Proofs.Parameters
import TestHooks.Proofs.Partition

/-!
# The build gate

All that an extension declares is to stand inside its conditional block. The end of the block is found by reading, and a
text that is written into the extension may bring a directive of its own (`leaking_extension`). Where no such text has a
hash sign, and the name of the type leaves the first line a header, the block is all there is (`extension_is_gated`).
-/

namespace TestHooks.Proxy

open TestHooks.Swift TestHooks.Text TestHooks.Expansion

/-! ### Texts without hash signs -/

/-- True if the text cannot bring a directive. -/
def Hashless (s : String) : Prop := '#' ∉ s.toList

instance (s : String) : Decidable (Hashless s) := inferInstanceAs (Decidable (_ ∉ _))

@[simp] theorem hashless_append {s t : String} : Hashless (s ++ t) ↔ Hashless s ∧ Hashless t := by
  rw [Hashless, String.toList_append, List.mem_append, not_or]
  rfl

theorem hashless_if {b : Bool} {s t : String} (hs : Hashless s) (ht : Hashless t) : Hashless (if b then s else t) := by
  split
  · exact hs
  · exact ht

theorem mem_joinWith {sep : List Char} {pieces : List (List Char)} {c : Char} (h : c ∈ joinWith sep pieces) :
    c ∈ sep ∨ ∃ piece ∈ pieces, c ∈ piece := by
  cases pieces with
  | nil => cases h
  | cons first others =>
    rw [joinWith_cons, List.mem_append, List.mem_flatMap] at h
    rcases h with h | ⟨piece, hp, h⟩
    · exact .inr ⟨first, List.mem_cons_self, h⟩
    · exact (List.mem_append.1 h).imp_right fun h => ⟨piece, List.mem_cons_of_mem _ hp, h⟩

theorem mem_joinWith_of_mem {sep : List Char} {pieces : List (List Char)} {piece : List Char} {c : Char}
    (hp : piece ∈ pieces) (hc : c ∈ piece) : c ∈ joinWith sep pieces := by
  cases pieces with
  | nil => cases hp
  | cons first others =>
    rw [joinWith_cons, List.mem_append, List.mem_flatMap]
    rcases List.mem_cons.1 hp with rfl | hp
    · exact .inl hc
    · exact .inr ⟨piece, hp, List.mem_append_right _ hc⟩

theorem hashless_joinTexts {sep : String} {texts : List String} (hsep : Hashless sep) (h : ∀ t ∈ texts, Hashless t) :
    Hashless (joinTexts sep texts) := by
  intro hc
  rw [joinTexts, String.toList_ofList] at hc
  rcases mem_joinWith hc with hc | ⟨piece, hp, hc⟩
  · exact hsep hc
  · obtain ⟨t, ht, rfl⟩ := List.mem_map.1 hp
    exact h t ht hc

theorem hashless_lines {s : String} (h : Hashless s) : ∀ l ∈ lines s, Hashless l := by
  intro l hl hc
  obtain ⟨piece, hp, rfl⟩ := List.mem_map.1 hl
  rw [String.toList_ofList] at hc
  apply h
  rw [← joinWith_splitAt '\n' s.toList]
  exact mem_joinWith_of_mem hp hc

theorem hashless_spaces (width : Nat) : Hashless (spaces width) := by
  intro hc
  rw [spaces, String.toList_ofList] at hc
  exact absurd (List.eq_of_mem_replicate hc) (by decide)

theorem hashless_number (n : Nat) : Hashless (toString n) := by
  intro hc
  have hd := Nat.isDigit_of_mem_toDigits (by decide) (by decide) (Nat.toList_repr ▸ hc)
  exact absurd hd (by decide)

theorem hashless_freeName {taken : List String} {name : String} (h : Hashless name) : Hashless (freeName taken name) := by
  fun_induction freeName taken name with
  | case1 taken name _ ih => exact ih (hashless_append.2 ⟨by decide, h⟩)
  | case2 => exact h

theorem hashless_reference (names : List String) : Hashless (reference names) :=
  hashless_freeName (by decide)

/-! ### Lines without hash signs -/

theorem hashless_write {indent : String} (hi : Hashless indent) {l : Line} (h : Hashless l.text) :
    Hashless (l.write indent) := by
  refine hashless_append.2 ⟨fun hc => ?_, h⟩
  rw [String.toList_join, List.mem_flatMap] at hc
  obtain ⟨s, hs, hc⟩ := hc
  rw [List.eq_of_mem_replicate hs] at hc
  exact hi hc

theorem hashless_writeLines {indent : String} (hi : Hashless indent) {ls : List Line} (h : ∀ l ∈ ls, Hashless l.text) :
    Hashless (writeLines indent ls) := by
  apply hashless_joinTexts (by decide)
  intro t ht
  obtain ⟨l, hl, rfl⟩ := List.mem_map.1 ht
  exact hashless_write hi (h l hl)

theorem hashless_fragmentLines {fragment : String} (h : Hashless fragment) :
    ∀ l ∈ fragmentLines fragment, Hashless l.text := by
  intro l hl
  unfold fragmentLines at hl
  split at hl
  · cases hl
  · obtain ⟨text, ht, rfl⟩ := List.mem_map.1 hl
    exact hashless_lines h text ht

/-! ### Members without hash signs -/

/-- The texts of a member that are written into the code. -/
def writtenTexts : Member → List String
  | .property p => [p.name, p.type.getD ""]
  | .function f => f.name :: f.returnType :: f.parameters.flatMap fun p => [p.label, p.name, p.type]
  | .unsupported _ => []
  | .unknown _ => []

theorem hashless_literalType? {initializer : Option String} {type : String}
    (h : literalType? initializer = some type) : Hashless type := by
  obtain ⟨text, -, h⟩ := Option.bind_eq_some_iff.1 h
  unfold literalTypeOf? at h
  split at h
  · cases h
    decide
  split at h
  · cases h
    decide
  split at h
  · cases h
    decide
  split at h
  · cases h
    decide
  · cases h

theorem hashless_resolve {typing : Typing} {p : Property} (hplaceholder : Hashless typing.placeholder)
    (htype : Hashless (p.type.getD "")) : Hashless (typing.resolve p) := by
  cases hk : typing.known? p with
  | none =>
    rw [Typing.resolve, hk]
    exact hplaceholder
  | some type =>
    rw [Typing.resolve, hk, Option.getD_some]
    unfold Typing.known? at hk
    split at hk
    · next written hw =>
      cases hk
      rw [(Option.filter_eq_some_iff.1 hw).1] at htype
      exact htype
    · split at hk
      · exact hashless_literalType? hk
      · cases hk

section

variable {target : Target} (htype : Hashless target.typeName) (hreference : Hashless target.reference)

include htype hreference

theorem hashless_receiver : Hashless target.receiver := by
  unfold Target.receiver
  split
  · exact htype
  · exact hreference

theorem hashless_receiverFor (locals : List String) : Hashless (target.receiverFor locals) := by
  unfold Target.receiverFor
  split
  · exact hashless_append.2 ⟨by decide, hreference⟩
  · exact hashless_receiver htype hreference

omit htype hreference in
theorem hashless_qualifier : Hashless target.qualifier := by
  unfold Target.qualifier
  split <;> decide

theorem hashless_propertyLines {typing : Typing} (hplaceholder : Hashless typing.placeholder) {p : Property}
    (hp : ∀ t ∈ writtenTexts (.property p), Hashless t) : ∀ l ∈ propertyLines target typing p, Hashless l.text := by
  have hname : Hashless p.name := hp _ (by simp [writtenTexts])
  have hresolved : Hashless (typing.resolve p) := hashless_resolve hplaceholder (hp (p.type.getD "") (by simp [writtenTexts]))
  have hpath : Hashless (target.receiver ++ "." ++ p.name) := by
    simp only [hashless_append, and_assoc]
    exact ⟨hashless_receiver htype hreference, by decide, hname⟩
  have hsetter : ∀ l ∈ (if p.hasSetter then [⟨1, "set \x7b"⟩, ⟨2, target.receiver ++ "." ++ p.name ++ " = newValue"⟩,
      ⟨1, "\x7d"⟩] else [] : List Line), Hashless l.text := by
    intro l hl
    split at hl
    · simp only [List.mem_cons, List.not_mem_nil, or_false] at hl
      rcases hl with rfl | rfl | rfl
      · decide
      · exact hashless_append.2 ⟨hpath, by decide⟩
      · decide
    · cases hl
  intro l hl
  simp only [propertyLines, List.mem_append, List.mem_cons, List.not_mem_nil, or_false] at hl
  rcases hl with ((rfl | rfl | rfl | rfl) | hl) | rfl
  · simp only [hashless_append, and_assoc]
    exact ⟨hashless_qualifier, by decide, hname, by decide, hresolved, by decide⟩
  · decide
  · exact hashless_append.2 ⟨by decide, hpath⟩
  · decide
  · exact hsetter l hl
  · decide

omit htype hreference in
theorem hashless_localNames {index : Nat} {taken : List String} {ps : List Parameter}
    (h : ∀ p ∈ ps, Hashless p.name) : ∀ name ∈ localNamesFrom index taken ps, Hashless name := by
  induction ps generalizing index taken with
  | nil => nofun
  | cons p ps ih =>
    intro name hn
    rw [localNamesFrom] at hn
    split at hn
    · rcases List.mem_cons.1 hn with rfl | hn
      · exact hashless_freeName (hashless_append.2 ⟨by decide, hashless_number index⟩)
      · exact ih (fun q hq => h q (List.mem_cons_of_mem p hq)) name hn
    · rcases List.mem_cons.1 hn with rfl | hn
      · exact h p List.mem_cons_self
      · exact ih (fun q hq => h q (List.mem_cons_of_mem p hq)) name hn

omit htype hreference in
/-- Texts that are made of parameters and names. -/
theorem hashless_zipWith {write : Parameter → String → String} {ps : List Parameter} {names : List String}
    (h : ∀ p ∈ ps, ∀ name ∈ names, Hashless (write p name)) : Hashless (joinTexts ", " (ps.zipWith write names)) := by
  apply hashless_joinTexts (by decide)
  intro t ht
  rw [← List.map_uncurry_zip_eq_zipWith] at ht
  obtain ⟨⟨p, name⟩, hmem, rfl⟩ := List.mem_map.1 ht
  exact h p (List.of_mem_zip hmem).1 name (List.of_mem_zip hmem).2

section Function

variable {wildcardLabels : Bool} {f : Function} (hf : ∀ t ∈ writtenTexts (.function f), Hashless t)

include hf

omit htype hreference in
theorem hashless_function : Hashless f.name ∧ Hashless f.returnType ∧
    ∀ p ∈ f.parameters, Hashless p.label ∧ Hashless p.name ∧ Hashless p.type := by
  refine ⟨hf _ (by simp [writtenTexts]), hf _ (by simp [writtenTexts]), fun p hp => ?_⟩
  have hmem : ∀ t ∈ [p.label, p.name, p.type], t ∈ writtenTexts (.function f) := fun t ht =>
    List.mem_cons_of_mem _ (List.mem_cons_of_mem _ (List.mem_flatMap.2 ⟨p, hp, ht⟩))
  exact ⟨hf _ (hmem _ (by simp)), hf _ (hmem _ (by simp)), hf _ (hmem _ (by simp))⟩

omit htype hreference in
theorem hashless_locals : ∀ name ∈ localNames f, Hashless name :=
  hashless_localNames fun p hp => ((hashless_function hf).2.2 p hp).2.1

omit htype hreference in
theorem hashless_signature : Hashless (signature target f) := by
  obtain ⟨hname, hreturns, hparameter⟩ := hashless_function hf
  have hdeclared : Hashless (joinTexts ", " (f.parameters.zipWith parameterDeclaration (localNames f))) := by
    apply hashless_zipWith
    intro p hp name hn
    obtain ⟨hlabel, -, htype⟩ := hparameter p hp
    unfold parameterDeclaration
    split
    · simp only [hashless_append, and_assoc]
      exact ⟨hlabel, by decide, htype⟩
    · simp only [hashless_append, and_assoc]
      exact ⟨hlabel, by decide, hashless_locals hf name hn, by decide, htype⟩
  simp only [signature, hashless_append, and_assoc]
  exact ⟨hashless_qualifier, hashless_if (by decide) (by decide), by decide, hname, by decide, hdeclared, by decide,
    hashless_if (by decide) (by decide), hashless_if (by decide) (by decide),
    hashless_if (by decide) (hashless_append.2 ⟨by decide, hreturns⟩)⟩

theorem hashless_call : Hashless (call target wildcardLabels f) := by
  obtain ⟨hname, -, hparameter⟩ := hashless_function hf
  have hpassed : Hashless (joinTexts ", " (f.parameters.zipWith (argument wildcardLabels) (localNames f))) := by
    apply hashless_zipWith
    intro p hp name hn
    have hlocal := hashless_locals hf name hn
    have hvalue : Hashless (if p.isInout then "&" ++ name else name) :=
      hashless_if (hashless_append.2 ⟨by decide, hlocal⟩) hlocal
    unfold argument
    dsimp only
    split
    · exact hvalue
    · simp only [hashless_append, and_assoc]
      exact ⟨(hparameter p hp).1, by decide, hvalue⟩
  simp only [call, hashless_append, and_assoc]
  exact ⟨hashless_if (by decide) (by decide), hashless_if (by decide) (by decide),
    hashless_receiverFor htype hreference _, by decide, hname, by decide, hpassed, by decide⟩

theorem hashless_functionLines : ∀ l ∈ functionLines target wildcardLabels f, Hashless l.text := by
  intro l hl
  simp only [functionLines, List.mem_cons, List.not_mem_nil, or_false] at hl
  rcases hl with rfl | rfl | rfl
  · exact hashless_append.2 ⟨hashless_signature hf, by decide⟩
  · exact hashless_append.2 ⟨by decide, hashless_call htype hreference hf⟩
  · decide

end Function

end

theorem hashless_fragments {settings : Settings} (hplaceholder : Hashless settings.placeholderType) {typeName : String}
    (htype : Hashless typeName) {c : Classification} (h : ∀ m ∈ c.forwarded, ∀ t ∈ writtenTexts m, Hashless t) :
    ∀ fragment ∈ (fragments settings typeName c).ordered, Hashless fragment := by
  have hindent : Hashless settings.indent := hashless_spaces _
  have hreference : Hashless (referenceFor c) := hashless_reference _
  have hproperties (isStatic : Bool) {ps : List Property} (hps : ∀ p ∈ ps, .property p ∈ c.forwarded) :
      Hashless (writeProperties ⟨typeName, isStatic, referenceFor c⟩ (.ofSettings settings) settings.indent ps) := by
    apply hashless_writeLines hindent
    intro l hl
    obtain ⟨p, hp, hl⟩ := List.mem_flatMap.1 hl
    exact hashless_propertyLines htype hreference hplaceholder (h _ (hps p hp)) l hl
  have hfunctions (isStatic : Bool) {fs : List Function} (hfs : ∀ f ∈ fs, .function f ∈ c.forwarded) :
      Hashless (writeFunctions ⟨typeName, isStatic, referenceFor c⟩ settings.wildcardCallLabels settings.indent fs) := by
    apply hashless_writeLines hindent
    intro l hl
    obtain ⟨f, hf, hl⟩ := List.mem_flatMap.1 hl
    exact hashless_functionLines htype hreference (h _ (hfs f hf)) l hl
  intro fragment hf
  simp only [Fragments.ordered, fragments, List.mem_cons, List.not_mem_nil, or_false] at hf
  rcases hf with rfl | rfl | rfl | rfl
  · exact hproperties false fun p hp => by simp [Classification.forwarded, hp]
  · exact hfunctions false fun f hf => by simp [Classification.forwarded, hf]
  · exact hproperties true fun p hp => by simp [Classification.forwarded, hp]
  · exact hfunctions true fun f hf => by simp [Classification.forwarded, hf]

/-! ### The lines of the block -/

/-- The lines between those that open and close the conditional block. -/
def blockLines (plan : Plan) (fragments : Fragments) : List Line :=
  (openingLines plan).drop 2 ++ fragments.ordered.flatMap fragmentLines ++ [⟨1, "\x7d"⟩]

theorem extensionLines_eq (plan : Plan) (fragments : Fragments) :
    extensionLines plan fragments =
      ⟨0, extensionLine plan.typeName⟩ :: ⟨1, "#if " ++ plan.condition⟩ ::
        (blockLines plan fragments ++ [⟨1, "#endif"⟩, ⟨0, "\x7d"⟩]) := by
  rw [blockLines, List.append_assoc _ [_] _]
  rfl

theorem hashless_blockLines {plan : Plan} {fragments : Fragments} (htype : Hashless plan.typeName)
    (hreference : Hashless plan.reference) (h : ∀ fragment ∈ fragments.ordered, Hashless fragment) :
    ∀ l ∈ blockLines plan fragments, Hashless l.text := by
  intro l hl
  simp only [blockLines, List.mem_append, List.mem_flatMap, List.mem_singleton] at hl
  rcases hl with (hl | ⟨fragment, hf, hl⟩) | rfl
  · simp only [openingLines, List.drop_succ_cons, List.drop_zero, List.mem_cons, List.not_mem_nil, or_false] at hl
    rcases hl with rfl | rfl | rfl | rfl | rfl | rfl | rfl | rfl
    · decide
    · decide
    · decide
    · decide
    · simp only [hashless_append, and_assoc]
      exact ⟨by decide, hreference, by decide, htype⟩
    · simp only [hashless_append, and_assoc]
      exact ⟨by decide, htype, by decide⟩
    · simp only [hashless_append, and_assoc]
      exact ⟨by decide, hreference, by decide⟩
    · decide
  · exact hashless_fragmentLines (h fragment hf) l hl
  · decide

/-- The characters of lines, each after a line break. -/
def brokenLines (indent : String) (ls : List Line) : List Char :=
  ls.flatMap fun l => '\n' :: (l.write indent).toList

theorem toList_writeLines (indent : String) (l : Line) (ls : List Line) :
    (writeLines indent (l :: ls)).toList = (l.write indent).toList ++ brokenLines indent ls := by
  rw [writeLines, unlines, joinTexts, String.toList_ofList, List.map_cons, List.map_cons, joinWith_cons, List.map_map,
    List.flatMap_map, brokenLines]
  rfl

theorem hashless_brokenLines {indent : String} (hi : Hashless indent) {ls : List Line}
    (h : ∀ l ∈ ls, Hashless l.text) : '#' ∉ brokenLines indent ls := by
  intro hc
  obtain ⟨l, hl, hc⟩ := List.mem_flatMap.1 hc
  rcases List.mem_cons.1 hc with hc | hc
  · cases hc
  · exact hashless_write hi (h l hl) hc

theorem toList_write (indent : String) (level : Nat) (text : String) :
    (Line.write indent ⟨level, text⟩).toList = (List.replicate level indent).flatMap String.toList ++ text.toList := by
  rw [Line.write, String.toList_append, String.toList_join]

/-- The first two lines, what the block holds, and the last two lines. -/
theorem toList_writeExtension (plan : Plan) (fragments : Fragments) :
    (writeExtension plan fragments).toList =
      (extensionLine plan.typeName).toList ++
        ('\n' :: (plan.indent.toList ++ "#if ".toList ++ plan.condition.toList)) ++
        (brokenLines plan.indent (blockLines plan fragments) ++
          '\n' :: (plan.indent.toList ++ "#endif\n\x7d".toList)) := by
  rw [writeExtension, extensionLines_eq, toList_writeLines, brokenLines, List.flatMap_cons, List.flatMap_append,
    toList_write, toList_write, String.toList_append, brokenLines]
  simp [toList_write]

/-! ### Reading the extension back -/

/-- The elements of the line that opens the block. -/
def openingElements (margin : List Char) : List Element :=
  [.lineBreak margin, ⟨.lexeme .hashWord, "#if".toList⟩, .space, .word "DEBUG".toList]

theorem openingElements_fit {margin after : List Char} (hm : ∀ c ∈ margin, c = ' ') (ha : after.head? = some '\n') :
    Fitting (openingElements margin) after := by
  have hword : after.head?.any isWordChar = false := by
    rw [ha]
    decide
  have hspace : isWordChar ' ' = false := by decide
  have hblank : isBlank 'D' = false := by decide
  refine ⟨lineBreak_fits hm rfl, directive_fits (by decide) (by decide) hspace, space_fits hblank, ?_, trivial⟩
  exact word_fits (.plain (by decide) (by decide)) hword

theorem brokenLines_head (indent : String) (ls : List Line) (tail : List Char) :
    ∃ more, brokenLines indent ls ++ '\n' :: tail = '\n' :: more := by
  cases ls with
  | nil => exact ⟨tail, rfl⟩
  | cons l ls => exact ⟨_, rfl⟩

/-- Behind a line break the first token stands on a new line. -/
theorem head_broken {es : List Element} {ts : List Token} {after more : List Char} (h : Reads false es ts)
    (hf : Fitting es after) (ht : es.flatMap Element.text = '\n' :: more) (hn : ts ≠ []) :
    ts.head?.any Token.newlineBefore = true := by
  cases es with
  | nil => cases ht
  | cons e es =>
    obtain ⟨c, cs, hc, hblank⟩ := head_of_fits hf.1
    rw [List.flatMap_cons, hc, List.cons_append] at ht
    obtain ⟨rfl, -⟩ := List.cons.inj ht
    have hshape : e.shape = .blank := hblank.2 isBlank_newline
    have hgap := reads_gap h (by rw [hshape]; nofun)
    rw [hc, show ('\n' :: cs).contains '\n' = true by simp, Bool.or_true] at hgap
    obtain ⟨place, gap, hbreak, rfl⟩ := hgap
    obtain ⟨t, ts, hts⟩ := List.exists_cons_of_ne_nil hn
    obtain ⟨lead, e', es', after', -, -, -, -, htg, -⟩ := ofElements_cons hts
    rw [hts, List.head?_cons, Option.any_some, Token.newlineBefore, htg]
    simp only [List.contains_iff_mem] at hbreak ⊢
    exact List.mem_append_left _ hbreak

/-- What stands behind the condition of a conditional block, up to the end of the text: elements without hash sign and
the closing lines. -/
structure GateRest (front : List Element) : Prop where
  fits : Fitting (front ++ closingElements) []
  broken : ∃ more, (front ++ closingElements).flatMap Element.text = '\n' :: more
  clean : '#' ∉ front.flatMap Element.text

/-- The members of a type are one conditional block, if only the lines that open and close it have hash signs. -/
theorem block_of_rest {margin : List Char} {front : List Element} {us left : List Token} {broken : Bool} {found : List Decl}
    (hrest : GateRest front) (h : Reads broken (openingElements margin ++ (front ++ closingElements)) us)
    (hm : membersRun us = .ok (found, left)) :
    ∃ position inside, found = [.conditional position [.mk .ifClause "DEBUG" inside]] := by
  obtain ⟨opener, us, rfl, hopener, h₁⟩ := reads_line h
  obtain ⟨word, us, rfl, hword, h₂⟩ := reads_spaced h₁
  replace h₂ : Reads false (front ++ closingElements) us := h₂
  obtain ⟨inside, vs, before, rfl, hinside, hvs⟩ := reads_split h₂
  obtain ⟨last, vs, rfl, hlast, h₃⟩ := reads_lexeme hvs
  obtain ⟨brace, vs, rfl, hbrace, h₄⟩ := reads_line h₃
  obtain rfl := reads_nil.1 h₄
  have hplain : ∀ u ∈ inside, u.kind ≠ .hashWord := by
    intro u hu
    have hbare : u.bare ∈ bareTokens front := reads_bare hinside ▸ List.mem_map_of_mem hu
    exact no_directive (fitting_append.1 hrest.fits).1 hrest.clean u.bare hbare
  have hbreak : (inside ++ [last]).head?.any Token.newlineBefore = true := by
    obtain ⟨more, hmore⟩ := hrest.broken
    have hhead := head_broken h₂ hrest.fits hmore (by simp)
    cases inside with
    | nil => exact hhead
    | cons u inside => exact hhead
  have hfinish : clauseMark? last = some .finish := by
    rw [clauseMark?, hlast.kind, hlast.text]
    rfl
  obtain ⟨block, rfl, -⟩ := members_of_block hopener.kind (by rw [hopener.text]; rfl) hword.newlineBefore hbreak hplain
    hfinish hbrace.kind hm
  have hphrase : phrase [word] = "DEBUG" := by
    rw [phrase, hword.text]
    decide
  exact ⟨opener.position, block, by rw [hphrase]⟩

section Gate

variable (plan : Plan) (fragments : Fragments) (hcondition : plan.condition = "DEBUG")
  (hindent : ∀ c ∈ plan.indent.toList, c = ' ') (hlines : ∀ l ∈ blockLines plan fragments, Hashless l.text)

include hcondition hindent hlines

/-- The elements of an extension that is read to its end: the first line, the line that opens the block, what the block
holds, and the lines that close it. -/
theorem elements_of_gate {es : List Element} (hes : es.flatMap Element.text = (extensionLine plan.typeName).toList)
    (hfits : ∀ after, Fitting es ('\n' :: after)) (hfail : (Tokens.ofText (writeExtension plan fragments)).failure = none) :
    ∃ front, GateRest front ∧ (Tokens.ofText (writeExtension plan fragments)).tokens =
      Token.ofElements .origin [] (es ++ (openingElements plan.indent.toList ++ (front ++ closingElements))) := by
  have hhash : Hashless plan.indent := fun hc => absurd (hindent _ hc) (by decide)
  obtain ⟨rest, hrest⟩ : ∃ rest, rest = brokenLines plan.indent (blockLines plan fragments) ++
    '\n' :: (plan.indent.toList ++ "#endif\n\x7d".toList) := ⟨_, rfl⟩
  obtain ⟨more, hmore⟩ : ∃ more, rest = '\n' :: more := hrest ▸ brokenLines_head _ _ _
  -- The text is cut behind the condition; what follows begins with a line break.
  have hfront : Fitting (es ++ openingElements plan.indent.toList) rest := by
    rw [fitting_append]
    exact ⟨hfits _, openingElements_fit hindent (by rw [hmore]; rfl)⟩
  have htext : (writeExtension plan fragments).toList =
      (es ++ openingElements plan.indent.toList).flatMap Element.text ++ rest := by
    rw [toList_writeExtension, hcondition, hrest, List.flatMap_append, hes]
    simp [openingElements, Element.lineBreak, Element.space, Element.word]
  have hcut := ofText_flatten hfront
  have hfault := no_failure_iff.1 hfail
  rw [htext, hcut] at hfault
  obtain ⟨hback, hflat⟩ := elements_of_no_fault hfault
  obtain ⟨front, hclosing, hclean⟩ := ends_at_directive hback hindent (hashless_brokenLines hhash hlines) (hflat.trans hrest)
  rw [hclosing] at hback hflat
  refine ⟨front, ⟨hback, ⟨more, hflat.trans hmore⟩, hclean⟩, ?_⟩
  rw [Tokens.ofText, htext, hcut, hclosing, List.append_assoc]

/-- The members of an extension are its conditional block, if only the block itself has hash signs. -/
theorem members_of_gate (hname : opensExtension plan.typeName = true) {found : List Decl}
    (h : parse (writeExtension plan fragments) = .ok found) :
    ∃ head header position inside others, found =
      .group head header [.conditional position [.mk .ifClause "DEBUG" inside]] :: others := by
  obtain ⟨es, header, t, ts, hes, hfits, htokens, ht, hheader⟩ := opensExtension_cases hname
  obtain ⟨hfail, htop⟩ := parse_cases h
  obtain ⟨front, hrest, hall⟩ := elements_of_gate plan fragments hcondition hindent hlines hes hfits hfail
  rw [ofElements_append, htokens] at hall
  obtain ⟨us, hstream, broken, hreads⟩ : ∃ us, (Tokens.ofText (writeExtension plan fragments)).tokens = t :: (ts ++ us) ∧
      ∃ broken, Reads broken (openingElements plan.indent.toList ++ (front ++ closingElements)) us :=
    ⟨_, hall, _, _, _, rfl, rfl⟩
  rw [hstream] at htop
  obtain ⟨head, header', inside, members, left, others, hh, hm, -, rfl⟩ := top_extension ht.kind (by rw [ht.text]; rfl) htop
  rw [typeHeader_extends hheader, Except.ok.injEq, Prod.mk.injEq] at hh
  obtain ⟨rfl, rfl⟩ := hh
  obtain ⟨position, block, rfl⟩ := block_of_rest hrest hreads hm
  exact ⟨head, header, position, block, others, rfl⟩

end Gate

end TestHooks.Proxy

namespace TestHooks.Expansion

open TestHooks.Proxy TestHooks.Swift

/-! ### Declarations -/

/-- A declaration whose extension reads back as one is expanded to it. -/
theorem expandDeclaration_of_reads {d : Declaration} {head : Head} {header : TypeHeader} {members : List Decl}
    (hkind : supportedKinds.contains d.kind = true)
    (hparse : parse (extensionOf {} d.name d) = .ok [.group head header members])
    (hkeyword : header.keyword = .extensionType) :
    ∃ record, expandDeclaration? .standard {} d = some record ∧ record.success = true ∧
      record.extensions = [extensionOf {} d.name d] := by
  have hsuccess : (runGenerator {} testable (markerNamed d testableName) d).success = true := by
    apply success_of_no_complaint _ rfl hkind
    exact complaint?_eq_none_iff.2 ⟨head, header, members, hparse, hkeyword⟩
  exact ⟨_, expandDeclaration_standard _ _, hsuccess, (extension_of_success hsuccess).1⟩

/-- An expansion succeeds with one extension that reads back as such. If the name of the type leaves the first line a
header, and neither it nor a text of a forwarded member has a hash sign, the extension holds its conditional block and
nothing else. -/
theorem extension_is_gated {d : Declaration} {record : Record} (h : expandDeclaration? .standard {} d = some record)
    (hsuccess : record.success = true) :
    ∃ code head header members, record.extensions = [code] ∧ parse code = .ok [.group head header members] ∧
      header.keyword = .extensionType ∧
      (opensExtension d.name = true → Hashless d.name →
        (∀ m ∈ Matcher.standard.forwarded d.members, ∀ t ∈ writtenTexts m, Hashless t) →
        ∃ position inside, members = [.conditional position [.mk .ifClause "DEBUG" inside]]) := by
  rw [expandDeclaration_standard, Option.some.injEq] at h
  subst h
  obtain ⟨hextensions, hc⟩ := extension_of_success hsuccess
  obtain ⟨head, header, members, hparse, hkeyword⟩ := complaint?_eq_none_iff.1 hc
  refine ⟨_, head, header, members, hextensions, hparse, hkeyword, fun hname hhash hmembers => ?_⟩
  have hlines : ∀ l ∈ blockLines (plan {} d.name (.ofMembers .standard d.members))
      (fragments {} d.name (.ofMembers .standard d.members)), Hashless l.text := by
    apply hashless_blockLines hhash (hashless_reference _)
    apply hashless_fragments (by decide) hhash
    rwa [Classification.forwarded_ofMembers]
  have hindent : ∀ c ∈ (plan {} d.name (.ofMembers .standard d.members)).indent.toList, c = ' ' := by
    intro c hc
    rw [plan, Settings.indent, spaces, String.toList_ofList] at hc
    exact List.eq_of_mem_replicate hc
  have hgate := members_of_gate (plan {} d.name (.ofMembers .standard d.members))
    (fragments {} d.name (.ofMembers .standard d.members)) rfl hindent hlines hname hparse
  obtain ⟨head', header', position, inside, others, hfound⟩ := hgate
  simp only [List.cons.injEq, Decl.group.injEq] at hfound
  exact ⟨position, inside, hfound.1.2.2⟩

/-- A class with a property and a function to forward. -/
def gatedDeclaration : Declaration where
  name := "A"
  kind := "class"
  members :=
    [.property ⟨"x", some "[Int]", true, ["private"], none, none⟩,
      .function ⟨"f", [⟨"_", "n", "Int"⟩], "Int", ["private"], false, false, none⟩]
  attributes := []
  position := none

theorem gatedDeclaration_is_gated :
    ∃ record code head header position inside,
      expandDeclaration? .standard {} gatedDeclaration = some record ∧ record.success = true ∧
      record.extensions = [code] ∧
      parse code = .ok [.group head header [.conditional position [.mk .ifClause "DEBUG" inside]]] := by
  have hread : (parse (extensionOf {} gatedDeclaration.name gatedDeclaration)).toOption.any isSingleExtension =
      true := by
    rw [parse, Tokens.ofText, extensionOf, toList_writeExtension]
    decide +kernel
  obtain ⟨ds, hds, hsingle⟩ := exists_ok hread
  obtain ⟨head, header, members, rfl, hkeyword⟩ := isSingleExtension_iff.1 hsingle
  obtain ⟨record, h, hsuccess, -⟩ := expandDeclaration_of_reads (by decide) hds hkeyword
  obtain ⟨code, head, header, members, hcode, hparse, -, hgate⟩ := extension_is_gated h hsuccess
  obtain ⟨position, inside, rfl⟩ := hgate (by decide +kernel) (by decide) (by decide)
  exact ⟨record, code, head, header, position, inside, h, hsuccess, hcode, hparse⟩

/-- A property whose type closes the conditional block and opens another. -/
def leakingDeclaration : Declaration where
  name := "A"
  kind := "class"
  members :=
    [.property ⟨"x", some "Int \x7b 0 \x7d\n\x7d\n#endif\nvar y: Int \x7b 0 \x7d\n#if DEBUG\nstruct B \x7b\nvar z: Int",
      false, ["private"], none, none⟩]
  attributes := []
  position := none

/-- True for an extension with a block, the variable `y` behind it, and another block. -/
def leaks : List Decl → Bool
  | [.group _ header [.conditional _ _, .variableList _ _ [b], .conditional _ _]] =>
    header.keyword == .extensionType && b.name == "y"
  | _ => false

theorem leaks_cases {ds : List Decl} (h : leaks ds = true) :
    ∃ head header p cs head' keyword b p' cs', ds =
      [.group head header [.conditional p cs, .variableList head' keyword [b], .conditional p' cs']] ∧
        header.keyword = .extensionType ∧ b.name = "y" := by
  unfold leaks at h
  split at h
  · simp only [Bool.and_eq_true, beq_iff_eq] at h
    exact ⟨_, _, _, _, _, _, _, _, _, rfl, h⟩
  · cases h

/-- A text of a member can end the block: a variable is declared outside any condition. -/
theorem leaking_extension :
    ∃ record code head header p cs head' keyword b p' cs',
      expandDeclaration? .standard {} leakingDeclaration = some record ∧ record.success = true ∧
      record.extensions = [code] ∧
      parse code = .ok [.group head header [.conditional p cs, .variableList head' keyword [b], .conditional p' cs']] ∧
      b.name = "y" := by
  have hread : (parse (extensionOf {} leakingDeclaration.name leakingDeclaration)).toOption.any leaks = true := by
    rw [parse, Tokens.ofText, extensionOf, toList_writeExtension]
    decide +kernel
  obtain ⟨ds, hparse, hleaks⟩ := exists_ok hread
  obtain ⟨head, header, p, cs, head', keyword, b, p', cs', rfl, hkeyword, hb⟩ := leaks_cases hleaks
  obtain ⟨record, h, hsuccess, hcode⟩ := expandDeclaration_of_reads (by decide) hparse hkeyword
  exact ⟨record, _, head, header, p, cs, head', keyword, b, p', cs', h, hsuccess, hcode, hparse, hb⟩

end TestHooks.Expansion
