import TestHooks.Proofs.Captures
import TestHooks.Proofs.Lowered
import TestHooks.Proofs.Reformatting

/-!
# Functions of texts without comments

In a text without comments nothing but blanks stands between tokens, so the texts of types hold no comments either. The
functions that types are lowered to are spelled to their ends (`lowered_clear`).
-/

namespace TestHooks.Swift

open TestHooks.Text TestHooks.Reader Reader

/-! ### Types -/

theorem not_comment_of_lexeme {e : Element} {kind : TokenKind} (h : e.shape = .lexeme kind) :
    e.shape ≠ .lineComment ∧ e.shape ≠ .blockComment := by
  simp [h]

theorem not_comment_of_blanks {e : Element} {after : List Char} (h : e.Fits after)
    (hb : ∀ c ∈ e.text, isBlank c = true) : e.shape ≠ .lineComment ∧ e.shape ≠ .blockComment := by
  obtain ⟨c, cs, ht, hs⟩ := head_of_fits h
  simp [hs.2 (hb c (ht ▸ List.mem_cons_self))]

/-- Elements whose tokens have blanks before them are no comments, up to the last lexeme. -/
theorem elements_of_spaced {place : Place} {gap after : List Char} {es : List Element} (hf : Fitting es after)
    (hl : EndsInLexeme es) (hs : ∀ t ∈ Token.ofElements place gap es, ∀ c ∈ t.gap.toList, isBlank c = true) :
    (∀ c ∈ gap, isBlank c = true) ∧ ∀ e ∈ es, e.shape ≠ .lineComment ∧ e.shape ≠ .blockComment := by
  induction es generalizing place gap with
  | nil =>
    obtain ⟨front, kind, cs, hx⟩ := hl
    simp at hx
  | cons e es ih =>
    have hlast : es = [] ∧ (∃ kind, e.shape = .lexeme kind) ∨ EndsInLexeme es := by
      obtain ⟨front, kind, cs, hx⟩ := hl
      cases front with
      | nil =>
        cases hx
        exact .inl ⟨rfl, kind, rfl⟩
      | cons f front =>
        cases hx
        exact .inr ⟨front, kind, cs, rfl⟩
    rw [Token.ofElements] at hs
    by_cases hk : ∃ kind, e.shape = .lexeme kind
    · obtain ⟨kind, hk⟩ := hk
      simp only [hk] at hs
      obtain ⟨hfirst, hrest⟩ := List.forall_mem_cons.1 hs
      rw [String.toList_ofList] at hfirst
      refine ⟨hfirst, List.forall_mem_cons.2 ⟨not_comment_of_lexeme hk, ?_⟩⟩
      rcases hlast with ⟨rfl, -⟩ | hlast
      · exact List.forall_mem_nil _
      · exact (ih hf.2 hlast hrest).2
    · have hlast := hlast.resolve_left fun hx => hk hx.2
      split at hs
      · next kind hx => exact absurd ⟨kind, hx⟩ hk
      · obtain ⟨hgap, hes⟩ := ih hf.2 hlast hs
        obtain ⟨hgap, he⟩ := List.forall_mem_append.1 hgap
        exact ⟨hgap, List.forall_mem_cons.2 ⟨not_comment_of_blanks hf.1 he, hes⟩⟩

/-- The text of tokens with nothing but blanks between them holds no comments. -/
theorem commentFree_phrase {ts taken left : List Token} {t : Token} (hs : Scanned ts) (h : t :: taken ++ left = ts)
    (hg : ∀ u ∈ taken, ∀ c ∈ u.gap.toList, isBlank c = true) : CommentFree (phrase (t :: taken)) := by
  obtain ⟨e, es, after, hf, hk, -, -, htext, hlast, place, rfl⟩ := phrase_elements hs h
  have hes : ∀ f ∈ e :: es, f.shape ≠ .lineComment ∧ f.shape ≠ .blockComment := by
    refine List.forall_mem_cons.2 ⟨not_comment_of_lexeme hk, ?_⟩
    by_cases hn : es = []
    · rw [hn]
      exact List.forall_mem_nil _
    · exact (elements_of_spaced hf.2 (endsInLexeme_of_last hn fun f hx => hlast f (getLast_cons hx)) hg).2
  have hblank : ∀ f, (e :: es).getLast? = some f → f.shape ≠ .blank := by
    intro f hx hb
    obtain ⟨kind, hk⟩ := hlast f hx
    rw [hb] at hk
    cases hk
  have hstays : ∀ f ∈ e :: es, f.staysOnLine = true := by
    intro f hm
    simpa [Element.staysOnLine] using (hes f hm).1
  have hsettled : settled (e :: es) = (e :: es).map Element.collapsed := by
    rw [settled, List.takeWhile_eq_self_iff.2 hstays]
  have hswallowed : swallowed (e :: es) = [] := by
    rw [swallowed, List.dropWhile_eq_nil_iff.2 hstays]
    rfl
  have hspelled := spelling_of_fitting hf hblank
  have hfits := hspelled.fits [] rfl
  have hflat := hspelled.flatten
  rw [hsettled, hswallowed, List.append_nil] at hfits hflat
  rw [CommentFree, htext, String.toList_ofList, ← hflat, cut_flatten hfits]
  intro f hm
  obtain ⟨g, hg, rfl⟩ := List.mem_map.1 hm
  exact hes g hg

/-- A type that holds no comments is spelled to its end. -/
theorem TypeText.spelled {stops : List String} {type : String} (h : TypeText stops type) (hc : CommentFree type) :
    ∃ es, TypeSpelling stops type es [] := by
  obtain ⟨es, tail, ht⟩ := h
  by_cases hn : tail = []
  · subst hn
    exact ⟨es, ht⟩
  · have hfits := ht.fits [] rfl
    have hline : '\n' ∉ tail := fun hm => ht.line (ht.flatten ▸ List.mem_append_right _ hm)
    have hall : Fitting (es ++ commented tail) [] := by
      rw [fitting_append, commented_flatten]
      exact ⟨hfits, comment_fits ht.comment hline rfl⟩
    have hcut := cut_flatten hall
    rw [List.flatMap_append, commented_flatten, ht.flatten] at hcut
    have hcomment : (⟨.lineComment, tail⟩ : Element) ∈ (Cut.ofText type.toList).elements := by
      rw [hcut, commented, if_neg hn]
      exact List.mem_append_right _ List.mem_cons_self
    exact absurd rfl (hc _ hcomment).1

/-! ### Types of a file -/

mutual

theorem nodesOf_trans {d e g : Decl} (he : e ∈ nodesOf d) (hg : g ∈ nodesOf e) : g ∈ nodesOf d := by
  cases d with
  | group head header members =>
    rw [nodesOf] at he
    rcases List.mem_cons.1 he with rfl | he
    · exact hg
    · rw [nodesOf]
      exact List.mem_cons_of_mem _ (nodesAmong_trans he hg)
  | conditional position clauses =>
    rw [nodesOf] at he
    rcases List.mem_cons.1 he with rfl | he
    · exact hg
    · rw [nodesOf]
      exact List.mem_cons_of_mem _ (nodesOfClauses_trans he hg)
  | variableList | function | other =>
    rw [nodesOf] at he
    rwa [List.mem_singleton.1 he] at hg

/-- What stands in a declaration of a tree stands in the tree. -/
theorem nodesAmong_trans {ds : List Decl} {e g : Decl} (he : e ∈ nodesAmong ds) (hg : g ∈ nodesOf e) :
    g ∈ nodesAmong ds := by
  cases ds with
  | nil => cases he
  | cons d ds =>
    rw [nodesAmong, List.mem_append] at he ⊢
    exact he.imp (nodesOf_trans · hg) (nodesAmong_trans · hg)

theorem nodesOfClauses_trans {cs : List Clause} {e g : Decl} (he : e ∈ nodesOfClauses cs) (hg : g ∈ nodesOf e) :
    g ∈ nodesOfClauses cs := by
  cases cs with
  | nil => cases he
  | cons c cs =>
    cases c with
    | mk keyword condition members =>
      rw [nodesOfClauses, List.mem_append] at he ⊢
      exact he.imp (nodesAmong_trans · hg) (nodesOfClauses_trans · hg)

end

/-- Names and types in every type among the declarations are spelled as such. -/
def TypesSpelled (ds : List Decl) : Prop :=
  ∀ head header members, .group head header members ∈ ds → (Decl.group head header members).Spelled

theorem typesSpelled_append {ds es : List Decl} (hd : TypesSpelled ds) (he : TypesSpelled es) : TypesSpelled (ds ++ es) :=
  fun head header members hm => (List.mem_append.1 hm).elim (hd head header members) (he head header members)

def typesInvariant : ReadingInvariant where
  declared _ t ts found _ := Scanned (t :: ts) → TypesSpelled (nodesAmong found.toList)
  listed ts found _ := Scanned ts → TypesSpelled (nodesAmong found)
  divided _ _ _ _ ts found _ := Scanned ts → TypesSpelled (nodesOfClauses found)
  enclosed _ _ ts found _ _ := Scanned ts → TypesSpelled (nodesAmong found)
  conditional {strict t ts cs left} _ _ _ h := by
    intro hs head header members hm
    rw [Option.toList_some, nodesAmong_singleton, nodesOf] at hm
    rcases List.mem_cons.1 hm with hx | hm
    · cases hx
    · exact h (scanned_suffix hs (List.suffix_cons _ _)) head header members hm
  directive _ _ _ := by
    intro _ head header members hm
    rw [Option.toList_some, nodesAmong_singleton, nodesOf] at hm
    cases List.mem_singleton.1 hm
  group {strict t ts head k rest keyword header inside ms left} _ hh _ ht hrun hm := by
    intro hs head' header' members hx
    have hr := scanned_suffix hs ((List.suffix_cons _ _).trans ((headFrom t).suffix hh))
    have hi := scanned_suffix hr ((typeHeader keyword).suffix ht)
    rw [Option.toList_some, nodesAmong_singleton, nodesOf] at hx
    rcases List.mem_cons.1 hx with hx | hx
    · cases hx
      exact .group (typeHeader_spelled hr ht) (spelledInvariant.listed_of_run hrun hi)
    · exact hm hi head' header' members hx
  flat {strict t ts head k rest found left} _ _ _ hf := by
    intro _ head' header members hm
    rcases flatDeclaration_cases hf with ⟨_, _, -, -, rfl⟩ | ⟨_, -, -, rfl⟩ | ⟨_, _, -, -, rfl⟩ | ⟨-, -, -, -, rfl, -⟩
    · cases List.mem_singleton.1 hm
    · cases List.mem_singleton.1 hm
    · cases List.mem_singleton.1 hm
    · cases hm
  close _ _ := nofun
  semicolon _ h hs := h (scanned_suffix hs (List.suffix_cons _ _))
  member _ _ hrun hd _ hm := by
    intro hs
    rw [nodesAmong_append]
    exact typesSpelled_append (hd hs)
      (hm (scanned_suffix hs ((declarationRun_suffix hrun).trans (List.suffix_cons _ _))))
  finish {_ _ mark keyword _ _ _ _ _ _} hc _ hm := by
    intro hs
    rw [nodesOfClauses, nodesOfClauses, List.append_nil]
    exact hm (scanned_suffix hs ((clauseCondition keyword mark).suffix hc))
  next {_ _ mark keyword _ _ _ _ _ _ _ _ _} hc hrun hm _ ho := by
    intro hs
    have hi := scanned_suffix hs ((clauseCondition keyword mark).suffix hc)
    rw [nodesOfClauses]
    exact typesSpelled_append (hm hi) (ho (scanned_suffix hi (clauseMembersRun_suffix hrun).1))
  mark _ _ := nofun
  separator _ _ h hs := h (scanned_suffix hs (List.suffix_cons _ _))
  enclosedMember _ _ _ hrun hd _ ho := by
    intro hs
    rw [nodesAmong_append]
    exact typesSpelled_append (hd hs)
      (ho (scanned_suffix hs ((declarationRun_suffix hrun).trans (List.suffix_cons _ _))))

theorem types_topLevel {ts : List Token} {found : List Decl} (h : topLevel ts = .ok found) (hs : Scanned ts) :
    TypesSpelled (nodesAmong found) := by
  rcases topLevel_cases h with ⟨rfl, rfl⟩ | ⟨t, rest, hts, ⟨hk, hr⟩ | ⟨-, -, first, after, others, hd, ho, rfl⟩⟩
  · exact nofun
  · exact types_topLevel hr (scanned_suffix hs (hts ▸ List.suffix_cons _ _))
  · rw [hts] at hs
    rw [nodesAmong_append]
    exact typesSpelled_append (typesInvariant.declared_of_run hd hs)
      (types_topLevel ho (scanned_suffix hs ((declarationRun_suffix hd).trans (List.suffix_cons t rest))))
termination_by ts.length
decreasing_by
  · rw [hts, List.length_cons]
    omega
  · have := (declarationRun_suffix hd).length_le
    rw [hts, List.length_cons]
    omega

/-- Names and types in every type of a file are spelled as such, also in conditional blocks. -/
theorem types_parse {text : String} {ds : List Decl} (h : parse text = .ok ds) : TypesSpelled (nodesAmong ds) :=
  types_topLevel (parse_cases h).2 (scanned_ofText text)

theorem types_commentFree {text : String} {ds : List Decl} (h : parse text = .ok ds) (hc : CommentFree text)
    {role : TypeRole} {type : String} (ht : (role, type) ∈ typesAmong ds) : CommentFree type := by
  obtain ⟨d, hd, hp⟩ := List.mem_flatMap.1 ht
  obtain ⟨taken, htaken, rfl⟩ := types_taken (nodes_parse h d hd) (role, type) hp
  obtain ⟨mark, left, hs, -, -⟩ := htaken.stands
  obtain ⟨t, more, rfl⟩ := List.exists_cons_of_ne_nil htaken.ne_nil
  have hsuffix : t :: more ++ left <:+ (Tokens.ofText text).tokens := (List.suffix_cons _ _).trans hs
  refine commentFree_phrase (scanned_suffix (scanned_ofText text) hsuffix) rfl fun u hu => ?_
  exact gap_ofText hc u (hsuffix.subset (List.mem_append_left _ (List.mem_cons_of_mem _ hu)))

end TestHooks.Swift

namespace TestHooks

open TestHooks.Swift

/-! ### Lowered functions -/

def Member.function? : Member → Option Function
  | .function f => some f
  | _ => none

/-- The functions of the declaration that a type is lowered to. -/
def Swift.Decl.functions : Decl → List Function
  | .group head header members => (Declaration.ofType head header members).members.filterMap Member.function?
  | _ => []

/-- The functions of all types in a tree. -/
def functionsAmong (ds : List Decl) : List Function :=
  (nodesAmong ds).flatMap Decl.functions

/-- The function was read from text without comments, and has as many arguments as parameters. -/
structure Function.Clear (f : Function) : Prop extends f.Spelled where
  parameterTypes : ∀ p ∈ f.parameters, CommentFree p.type
  result : CommentFree f.returnType
  single : ∀ p ∈ f.parameters, p.type.endsWith "..." = false

theorem signature_of_function {d : Decl} {f : Function} (h : .function f ∈ membersOfDecl d) :
    ∃ head s, d = .function head s ∧ s.parameters.any (·.isVariadic) = false ∧
      f.parameters = s.parameters.map (fun p => .ofLabel p.firstName p.secondName p.type) ∧
        f.returnType = s.returnType.getD "" := by
  cases d with
  | function head s =>
    have hm := List.mem_singleton.1 h
    unfold memberOfSignature at hm
    split at hm
    · cases hm
    · next hreason =>
      cases hm
      exact ⟨head, s, rfl, (unsupportedReason?_eq_none hreason).2, rfl, rfl⟩
  | variableList head keyword bindings =>
    obtain ⟨b, -, type, -, hx⟩ := mem_membersOfBindings h
    rcases memberOfBinding_cases head keyword b type with ⟨reason, hm⟩ | ⟨-, hm⟩
    · rw [hm] at hx
      cases hx
    · rw [hm] at hx
      cases hx
  | group | conditional | other => cases List.mem_singleton.1 h

/-- A function that a type is lowered to comes from a declaration in the tree. -/
theorem lowered_cases {ds : List Decl} {f : Function} (hf : f ∈ functionsAmong ds) :
    ∃ head header members d, .group head header members ∈ nodesAmong ds ∧ d ∈ members ∧
      .function f ∈ membersOfDecl d := by
  obtain ⟨g, hg, hf⟩ := List.mem_flatMap.1 hf
  cases g with
  | group head header members =>
    obtain ⟨m, hm, hx⟩ := List.mem_filterMap.1 hf
    obtain ⟨d, hd, hm⟩ := List.mem_flatMap.1 hm
    cases m with
    | function =>
      cases hx
      exact ⟨head, header, members, d, hg, hd, hm⟩
    | property | unsupported | unknown => cases hx
  | variableList | function | conditional | other => cases hf

theorem lowered_spelled {text : String} {ds : List Decl} (h : parse text = .ok ds) {f : Function}
    (hf : f ∈ functionsAmong ds) : f.Spelled := by
  obtain ⟨head, header, members, d, hg, hd, hm⟩ := lowered_cases hf
  have hmembers : ∀ d ∈ members, d.Spelled := by
    cases types_parse h head header members hg with
    | group _ hm => exact hm
  exact membersOfDecl_spelled (hmembers d hd) _ hm

/-- The types of a function that a type is lowered to are recorded in the tree. -/
theorem lowered_types {ds : List Decl} {f : Function} (hf : f ∈ functionsAmong ds) :
    (∀ p ∈ f.parameters, (.parameter, p.type) ∈ typesAmong ds ∧ p.type.endsWith "..." = false) ∧
      (f.returnType = "" ∨ (.result, f.returnType) ∈ typesAmong ds) := by
  obtain ⟨head, header, members, d, hg, hd, hm⟩ := lowered_cases hf
  have hnode : d ∈ nodesAmong ds := nodesAmong_trans hg (mem_nodesOf_member hd)
  obtain ⟨position, s, rfl, hvariadic, hparameters, hresult⟩ := signature_of_function hm
  constructor
  · intro p hp
    rw [hparameters] at hp
    obtain ⟨q, hq, rfl⟩ := List.mem_map.1 hp
    refine ⟨List.mem_flatMap.2 ⟨_, hnode, List.mem_append_left _ (List.mem_map.2 ⟨q, hq, rfl⟩)⟩, ?_⟩
    exact Bool.eq_false_iff.2 fun hx => Bool.eq_false_iff.1 hvariadic (List.any_eq_true.2 ⟨q, hq, hx⟩)
  · rw [hresult]
    cases hr : s.returnType with
    | none => exact .inl rfl
    | some type =>
      refine .inr (List.mem_flatMap.2 ⟨_, hnode, List.mem_append_right _ (List.mem_map.2 ⟨type, ?_, rfl⟩)⟩)
      rw [hr]
      exact List.mem_cons_self

/-- What a type of a text without comments is lowered to is spelled to its end. -/
theorem lowered_clear {text : String} {ds : List Decl} (h : parse text = .ok ds) (hc : CommentFree text) {f : Function}
    (hf : f ∈ functionsAmong ds) : f.Clear := by
  obtain ⟨hparameters, hresult⟩ := lowered_types hf
  refine ⟨lowered_spelled h hf, fun p hp => types_commentFree h hc (hparameters p hp).1, ?_, fun p hp => (hparameters p hp).2⟩
  rcases hresult with hempty | hresult
  · have hnone : Cut.ofText "".toList = ⟨[], [], none⟩ := @cut_flatten [] trivial
    rw [hempty, CommentFree, hnone]
    exact List.forall_mem_nil _
  · exact types_commentFree h hc hresult

end TestHooks
