import Mathlib.Data.List.Forall2
import TestHooks.Proofs.Calls
import TestHooks.Proofs.Directives

/-!
# Forwarded members in a row

Members that are each read as expected or not at all are read one behind the other, up to the brace that ends them
(`members_read`). A member that is not read as expected leaves a block that cannot be read to its end.
-/

namespace TestHooks.Proxy

open TestHooks.Swift TestHooks.Swift.Reader TestHooks.Text TestHooks.Reader

/-- Declarations as expected, each at some place. -/
def Stand (expected : List (Position → Decl)) (found : List Decl) : Prop :=
  List.Forall₂ (fun e d => ∃ p, d = e p) expected found

/-- Lines of members that are each read as expected or not at all. -/
inductive Forwards : List (List Char) → List (Position → Decl) → List Element → Prop
  | nil : Forwards [] [] []
  | cons {lines more : List (List Char)} {d : Position → Decl} {ds : List (Position → Decl)} {es fs : List Element}
    (h : Forwarding lines d es) (hs : Forwards more ds fs) : Forwards (lines ++ more) (d :: ds) (es ++ fs)

/-- The elements of a closing brace on a line of its own. -/
def endElements (margin : List Char) : List Element :=
  [.lineBreak margin, .mark .rightBrace '\x7d']

theorem end_rises (margin : List Char) : Rises (bareTokens (endElements margin)) := ⟨0, rfl⟩

namespace Forwards

variable {lines more : List (List Char)} {ds others : List (Position → Decl)} {es fs : List Element}

theorem append (h : Forwards lines ds es) (h' : Forwards more others fs) :
    Forwards (lines ++ more) (ds ++ others) (es ++ fs) := by
  induction h with
  | nil => exact h'
  | cons hd hs ih =>
    rw [List.append_assoc, List.append_assoc]
    exact .cons hd ih

theorem page (h : Forwards lines ds es) : Page lines es := by
  induction h with
  | nil => exact .nil
  | cons hd hs ih => exact hd.page.append ih

theorem rises (h : Forwards lines ds es) : Rises (bareTokens es) := by
  induction h with
  | nil => exact ⟨0, rfl⟩
  | cons hd hs ih => exact rises_append hd.rises ih

/-- The members and the brace behind them begin with a declaration or with the brace. -/
theorem opens (h : Forwards lines ds es) (margin : List Char) (after : List Element) :
    Opens (es ++ (endElements margin ++ after)) := by
  cases h with
  | nil => exact ⟨margin, _, _, after, rfl, .inl rfl⟩
  | cons hd hs =>
    obtain ⟨margin', kind, cs, rest, rfl, hk⟩ := hd.opens
    exact ⟨margin', kind, cs, _, rfl, hk⟩

/-- A member of the row is read as expected before the rest of the row, or it gets stuck. -/
theorem step {d : Position → Decl} (hd : Forwarding lines d es) (hs : Forwards more others fs) {margin : List Char}
    {after : List Element} (ha : Rises (bareTokens after)) {ts : List Token}
    (h : Reads false (es ++ fs ++ (endElements margin ++ after)) ts) :
    ∃ t rest, ts = t :: rest ∧ t.kind = .identifier ∧ ∀ {found : Option Decl} {left : List Token},
      declarationRun true t rest = .ok (found, left) → Outcome (fs ++ (endElements margin ++ after)) d found left := by
  rw [List.append_assoc] at h
  exact hd.outcome (hs.opens margin after) (rises_append hs.rises (rises_append (end_rises margin) ha)) h

end Forwards

/-! ### Reading a row -/

/-- No declaration begins with a word that belongs to a body. -/
theorem no_declaration {t : Token} {rest : List Token} (hk : t.kind = .identifier) (ht : t.text ∈ ["get", "set", "return"])
    {found : Option Decl} {left : List Token} : declarationRun true t rest ≠ .ok (found, left) := by
  intro h
  have hword : Introducer.ofToken? t = none ∧ modifierWords.contains t.text = false := by
    simp only [List.mem_cons, List.not_mem_nil, or_false] at ht
    rw [Introducer.ofToken?, hk]
    rcases ht with ht | ht | ht <;> rw [ht] <;> decide
  have hf := flat_cases (by simp [hk]) (headFrom_word hk hword.2 rest) hword.1 (by simp) h
  rcases flatDeclaration_cases hf with ⟨keyword, bs, hx, -⟩ | ⟨signature, hx, -⟩ | ⟨keyword, name, hx, -⟩ | ⟨-, hx, -⟩
  · cases hx
  · cases hx
  · cases hx
  · cases hx

/-- A word begins a member of a clause. -/
theorem clause_word {start t : Token} {rest left : List Token} {found : List Decl} {mark : Token × ClauseMark}
    (hk : t.kind = .identifier) (h : clauseMembersRun true start (t :: rest) = .ok ((found, mark), left)) :
    ∃ first after others, declarationRun true t rest = .ok (first, after) ∧
      clauseMembersRun true start after = .ok ((others, mark), left) ∧ found = first.toList ++ others := by
  obtain ⟨t', rest', he, hcases⟩ := clauseMembersRun_cases h
  obtain ⟨rfl, rfl⟩ := List.cons.inj he
  rcases hcases with ⟨m, hm, -⟩ | ⟨-, hx, -⟩ | ⟨-, -, -, h⟩
  · have := hashWord_of_clauseMark hm
    rw [hk] at this
    cases this
  · rw [hk] at hx
    cases hx
  · exact h

/-- No clause goes on with a closing brace. -/
theorem clause_brace {start t : Token} {rest left : List Token} {found : List Decl} {mark : Token × ClauseMark}
    (hk : t.kind = .rightBrace) : clauseMembersRun true start (t :: rest) ≠ .ok ((found, mark), left) := by
  intro h
  obtain ⟨t', rest', he, hcases⟩ := clauseMembersRun_cases h
  obtain ⟨rfl, rfl⟩ := List.cons.inj he
  rcases hcases with ⟨m, hm, -⟩ | ⟨-, hx, -⟩ | ⟨-, -, hx, -⟩
  · have := hashWord_of_clauseMark hm
    rw [hk] at this
    cases this
  · rw [hk] at hx
    cases hx
  · exact hx hk

/-- Where a row of members is not closed by a directive, no clause ends. -/
theorem clause_fails {lines : List (List Char)} {ds : List (Position → Decl)} {es : List Element}
    (h : Forwards lines ds es) {margin : List Char} {after : List Element} (ha : Rises (bareTokens after))
    {start : Token} {ts left : List Token} (hr : Reads false (es ++ (endElements margin ++ after)) ts)
    {found : List Decl} {mark : Token × ClauseMark} : clauseMembersRun true start ts ≠ .ok ((found, mark), left) := by
  intro hrun
  induction h generalizing ts found with
  | nil =>
    obtain ⟨closer, rest, rfl, hc, -⟩ := reads_line hr
    exact clause_brace hc.kind hrun
  | cons hd hs ih =>
    obtain ⟨t, rest, rfl, hk, hout⟩ := hs.step hd ha hr
    obtain ⟨first, after', others, hdecl, hothers, -⟩ := clause_word hk hrun
    rcases hout hdecl with ⟨p, -, hnext⟩ | rfl | ⟨u, us, rfl, ⟨hu, -⟩ | ⟨hu, hword⟩⟩
    · exact ih hnext hothers
    · obtain ⟨t', rest', he, -⟩ := clauseMembersRun_cases hothers
      cases he
    · exact clause_brace hu hothers
    · obtain ⟨first', after'', others', hdecl', -⟩ := clause_word hu hothers
      exact no_declaration hu hword hdecl'

/-- A row of members is read as expected up to its brace, or the brace is taken away by one of them, and the rest of the
row is left. -/
theorem members_read {lines : List (List Char)} {ds : List (Position → Decl)} {es : List Element}
    (h : Forwards lines ds es) {margin : List Char} {after : List Element} (ha : Rises (bareTokens after))
    {ts left : List Token} (hr : Reads false (es ++ (endElements margin ++ after)) ts) {found : List Decl}
    (hrun : membersRun ts = .ok (found, left)) :
    (Stand ds found ∧ Reads false after left) ∨ ∃ lines' ds' es', Forwards lines' ds' es' ∧
      Reads false (es' ++ (endElements margin ++ after)) left := by
  induction h generalizing ts found with
  | nil =>
    obtain ⟨closer, rest, rfl, hc, hrest⟩ := reads_line hr
    rw [membersRun_close hc.kind] at hrun
    cases hrun
    exact .inl ⟨.nil, hrest⟩
  | cons hd hs ih =>
    obtain ⟨t, rest, rfl, hk, hout⟩ := hs.step hd ha hr
    obtain ⟨first, after', others, hdecl, hothers, rfl⟩ := members_word hk hrun
    rcases hout hdecl with ⟨p, rfl, hnext⟩ | rfl | ⟨u, us, rfl, ⟨hu, hnext⟩ | ⟨hu, hword⟩⟩
    · exact (ih hnext hothers).imp_left fun hx => ⟨.cons ⟨p, rfl⟩ hx.1, hx.2⟩
    · obtain ⟨t', rest', he, -⟩ := membersRun_cases hothers
      cases he
    · rw [membersRun_close hu] at hothers
      cases hothers
      exact .inr ⟨_, _, _, hs, hnext⟩
    · obtain ⟨first', after'', others', hdecl', -⟩ := members_word hu hothers
      exact absurd hdecl' (no_declaration hu hword)

end TestHooks.Proxy
