import TestHooks.Proofs.Outcomes
import TestHooks.Proofs.Reformatting
import TestHooks.Proofs.TwinHeaders

/-!
# Declarations of twins

Twins are read as declarations of the same kinds, or both fail. What is passed in calls stands in bodies, which are
skipped, so whether a text is one extension does not depend on it (`singleExtension_twins`).
-/

namespace TestHooks.Swift

open TestHooks.Reader Reader

/-- True for an extension. -/
def Decl.isExtension : Decl → Bool
  | .group _ header _ => header.keyword == .extensionType
  | _ => false

/-- Heads that both have attributes or both have none, and the same for modifiers. -/
structure SameHead (x y : Head) : Prop where
  attributes : SameEmptiness x.attributes y.attributes
  modifiers : SameEmptiness x.modifiers y.modifiers

/-- Both readings found an extension, or something else, or nothing. -/
def SameForm (x y : Option Decl) : Prop := x.map Decl.isExtension = y.map Decl.isExtension

theorem even_headFrom (t u : Token) : Even Twins Twins SameHead (headFrom t) (headFrom u) :=
  even_attributes.bind fun _ _ ha => even_modifiers.bind fun _ _ hm => even_pure ⟨ha, hm⟩

theorem even_clauseCondition (keyword : ClauseKeyword) (t u : Token) :
    Even Twins Twins Unlooked (clauseCondition keyword t) (clauseCondition keyword u) := by
  unfold clauseCondition
  split
  · exact even_pure trivial
  · exact even_condition t u

/-- Somewhere in twins. -/
def Amid (ts us : List Token) : Prop := ∃ stage, Twin stage ts us

theorem even_statementOrFault (strict : Bool) {head head' : Head} (hh : SameHead head head') {t u : Token}
    (h : t.Resembles u) :
    Even Amid Twins SameForm (statementOrFault strict head t) (statementOrFault strict head' u) := by
  unfold statementOrFault
  rw [hh.attributes, hh.modifiers]
  split
  · exact even_fail _ _
  · have hstatement : Even Amid Twins Unlooked (statementFrom t) (statementFrom u) := by
      rintro ts us ⟨stage, hs⟩
      simp only [statementFrom, statementDepth_like h.toLike]
      exact .ok trivial (hs.afterStatement _ fun _ => rfl)
    exact hstatement.bind fun _ _ _ => even_pure rfl

theorem even_flatDeclaration (strict : Bool) {head head' : Head} (hh : SameHead head head') {t u : Token}
    (h : t.Resembles u) (introducer : Option Introducer) :
    Even Twins Twins SameForm (flatDeclaration strict head t introducer)
      (flatDeclaration strict head' u introducer) := by
  have hstatement : Even Twins Twins SameForm (statementOrFault strict head t) (statementOrFault strict head' u) :=
    (even_statementOrFault strict hh h).imp (fun _ _ h => ⟨.outside, h⟩) (fun _ _ h => h) fun _ _ h => h
  unfold flatDeclaration
  split
  · exact even_bindings.bind fun _ _ _ => even_pure rfl
  · exact even_function.bind fun _ _ _ => even_pure rfl
  · exact (even_otherName _).bind fun _ _ _ => even_pure rfl
  · exact hstatement
  · exact hstatement

/-- A word that declares something is no dot. -/
theorem introducer_of_dot {t : Token} (h : t.kind = .dot) : Introducer.ofToken? t = none := by
  rw [Introducer.ofToken?, h]
  rfl

mutual

/-- Declarations of the same form are read from twins. -/
theorem declaration_twins (strict : Bool) {t u : Token} {ts us : List Token} (h : Twins (t :: ts) (u :: us)) :
    Both Twins SameForm (declarationRun strict t ts) (declarationRun strict u us) := by
  obtain ⟨_, _, he, htu, -⟩ := h.cons_cases
  cases he
  rw [declarationRun_eq, declarationRun_eq, ← htu.kind, ← htu.text]
  split
  · next hk =>
    obtain ⟨-, hs⟩ := h.tail (by simp [hk])
    split
    · exact (clauses_twins strict .ifClause hs).bind fun _ _ _ _ _ _ hl => .ok rfl hl
    · exact (even_directive htu hs).bind fun _ _ _ _ _ _ hl => .ok rfl hl
  · refine (even_headFrom t u h).bind fun head head' left left' hr hh hl => ?_
    cases left with
    | nil =>
      cases hl
      exact .error
    | cons k rest =>
      obtain ⟨k', rest', rfl, hk, hrest⟩ := hl.cons_cases
      have hshorter := (suffix_of_cons_suffix_cons ((headFrom t).suffix hr)).length_le
      dsimp only
      rw [declarationAfter, declarationAfter, ← introducer_like hk.toLike]
      split
      · next keyword hi =>
        obtain ⟨-, hinside⟩ := hl.tail fun hdot => by simp [introducer_of_dot hdot] at hi
        refine (even_typeHeader keyword hinside).bind fun header header' inside inside' hi hheader hl => ?_
        have := strict_typeHeader keyword hi
        refine (members_twins hl).bind fun _ _ _ _ _ _ hl => .ok ?_ hl
        simp only [SameForm, Option.map_some, Decl.isExtension, hheader]
      · next hi =>
        rcases hrest with hrest | ⟨hdot, hrest⟩
        · exact even_flatDeclaration strict hh hk _ hrest
        · rw [introducer_of_dot hdot]
          exact even_statementOrFault strict hh hk ⟨.dotted, hrest⟩
termination_by 3 * ts.length + 2
decreasing_by
  · omega
  · dsimp only at *
    omega

theorem members_twins {ts us : List Token} (h : Twins ts us) : Both Twins Unlooked (membersRun ts) (membersRun us) := by
  cases ts with
  | nil =>
    cases h
    rw [membersRun, members]
    exact .error
  | cons t ts =>
    obtain ⟨u, us, rfl, htu, -⟩ := h.cons_cases
    rw [membersRun_eq, membersRun_eq, ← htu.kind]
    split
    · next hk => exact .ok trivial (h.tail (by simp [hk])).2
    · split
      · next hk => exact members_twins (h.tail (by simp [hk])).2
      · refine (declaration_twins true h).bind fun d d' left left' hr _ hl => ?_
        have := (declarationRun_suffix hr).length_le
        exact (members_twins hl).bind fun _ _ _ _ _ _ hl => .ok trivial hl
termination_by 3 * ts.length
decreasing_by
  all_goals subst_vars
  all_goals simp only [List.length_cons]
  all_goals omega

theorem clauses_twins (strict : Bool) (keyword : ClauseKeyword) {start start' mark mark' : Token} {ts us : List Token}
    (h : Twins ts us) :
    Both Twins Unlooked (clausesRun strict start mark keyword ts) (clausesRun strict start' mark' keyword us) := by
  rw [clausesRun_eq, clausesRun_eq]
  refine (even_clauseCondition keyword mark mark' h).bind fun condition _ inside _ hr _ hl => ?_
  have := (clauseCondition keyword mark).length_le hr
  refine (clauseMembers_twins strict hl).bind fun found found' left left' hr' hfound hl => ?_
  have := (clauseMembersRun_suffix hr').2
  obtain ⟨ms, t, m⟩ := found
  obtain ⟨ms', t', m'⟩ := found'
  obtain rfl : m = m' := hfound
  cases m with
  | finish => exact .ok trivial hl
  | next keyword' => exact (clauses_twins strict keyword' hl).bind fun _ _ _ _ _ _ hl => .ok trivial hl
termination_by 3 * ts.length + 1
decreasing_by
  all_goals omega

/-- The members of a clause end with the same directive. -/
theorem clauseMembers_twins (strict : Bool) {start start' : Token} {ts us : List Token} (h : Twins ts us) :
    Both Twins (fun x y => x.2.2 = y.2.2) (clauseMembersRun strict start ts) (clauseMembersRun strict start' us) := by
  cases ts with
  | nil =>
    cases h
    rw [clauseMembersRun, clauseMembersRun, clauseMembers, clauseMembers]
    exact .error
  | cons t ts =>
    obtain ⟨u, us, rfl, htu, -⟩ := h.cons_cases
    rw [clauseMembersRun_eq, clauseMembersRun_eq, ← clauseMark?_like htu.toLike, ← htu.kind]
    split
    · next hm => exact .ok rfl (h.tail fun hdot => by simp [clauseMark?, hdot] at hm).2
    · split
      · next hk => exact clauseMembers_twins strict (h.tail (by simp [hk])).2
      · split
        · exact .error
        · refine (declaration_twins strict h).bind fun d d' left left' hr _ hl => ?_
          have := (declarationRun_suffix hr).length_le
          exact (clauseMembers_twins strict hl).bind fun _ _ _ _ _ hm hl => .ok hm hl
termination_by 3 * ts.length
decreasing_by
  all_goals subst_vars
  all_goals simp only [List.length_cons]
  all_goals omega

end

/-- The kinds of the declarations that a file is read as. -/
def forms (ts : List Token) : Option (List Bool) :=
  (topLevel ts).toOption.map (·.map Decl.isExtension)

theorem forms_of_declaration (t : Token) (ts : List Token) (hs : t.kind ≠ .semicolon) (hb : t.kind ≠ .rightBrace) :
    forms (t :: ts) = (declarationRun false t ts).toOption.bind fun d =>
      (forms d.2).map ((d.1.map Decl.isExtension).toList ++ ·) := by
  rw [forms, topLevel_eq, if_neg hs, if_neg hb]
  cases declarationRun false t ts with
  | error fault => rfl
  | ok d =>
    change ((topLevel d.2).map _).toOption.map _ = (forms d.2).map _
    rw [forms]
    cases topLevel d.2 with
    | error fault => rfl
    | ok ds =>
      change some ((d.1.toList ++ ds).map Decl.isExtension) = some ((d.1.map Decl.isExtension).toList ++ ds.map _)
      rw [List.map_append]
      cases d.1 <;> rfl

/-- Files of twins hold declarations of the same kinds. -/
theorem forms_twins {ts us : List Token} (h : Twins ts us) : forms ts = forms us := by
  induction hn : ts.length using Nat.strongRecOn generalizing ts us with
  | ind n ih =>
    cases ts with
    | nil =>
      cases h
      rfl
    | cons t ts =>
      obtain ⟨u, us, rfl, htu, -⟩ := h.cons_cases
      rw [List.length_cons] at hn
      by_cases hs : t.kind = .semicolon
      · obtain ⟨-, hrest⟩ := h.tail (by simp [hs])
        rw [forms, forms, topLevel_eq, topLevel_eq, if_pos hs, if_pos (htu.kind ▸ hs)]
        exact ih ts.length (by omega) hrest rfl
      · by_cases hb : t.kind = .rightBrace
        · rw [forms, forms, topLevel_eq, topLevel_eq, if_neg hs, if_pos hb, if_neg (htu.kind ▸ hs),
            if_pos (htu.kind ▸ hb)]
          rfl
        · rw [forms_of_declaration t ts hs hb, forms_of_declaration u us (htu.kind ▸ hs) (htu.kind ▸ hb)]
          have hd := declaration_twins false h
          revert hd
          cases hr : declarationRun false t ts <;> cases declarationRun false u us <;> intro hd <;> cases hd
          · rfl
          · next hx hl =>
            have := (declarationRun_suffix hr).length_le
            change (forms _).map _ = (forms _).map _
            rw [hx, ih _ (by omega) hl rfl]

end TestHooks.Swift

namespace TestHooks.Proxy

open TestHooks.Swift

theorem isSingleExtension_eq (ds : List Decl) : isSingleExtension ds = (ds.map Decl.isExtension == [true]) := by
  unfold isSingleExtension
  split
  · next header _ => simp [Decl.isExtension]
  · next hne =>
    symm
    rw [beq_eq_false_iff_ne]
    intro hx
    obtain ⟨d, rfl, hd⟩ := List.map_eq_singleton_iff.1 hx
    cases d with
    | group head header members => exact hne head header members rfl
    | variableList | function | conditional | other => cases hd

/-- Nothing is wrong with a text exactly if it can be cut to its end and reads as one extension. -/
theorem complaint?_eq_none_iff_forms {code : String} {site : Option Position} :
    complaint? code site = none ↔
      (Tokens.ofText code).failure = none ∧ forms (Tokens.ofText code).tokens = some [true] := by
  rw [complaint?, Swift.parse]
  cases hf : (Tokens.ofText code).failure with
  | some e => simp
  | none =>
    rw [forms]
    cases topLevel (Tokens.ofText code).tokens with
    | error fault => simp [Except.mapError, Except.toOption]
    | ok ds => simp [Except.mapError, Except.toOption, isSingleExtension_eq]

/-- Texts whose tokens are twins pass or fail together. -/
theorem singleExtension_twins {code code' : String} {site site' : Option Position}
    (hc : (Tokens.ofText code).failure = none) (hc' : (Tokens.ofText code').failure = none)
    (h : Twins (Tokens.ofText code).tokens (Tokens.ofText code').tokens) :
    complaint? code site = none ↔ complaint? code' site' = none := by
  rw [complaint?_eq_none_iff_forms, complaint?_eq_none_iff_forms, hc, hc', forms_twins h]

end TestHooks.Proxy
