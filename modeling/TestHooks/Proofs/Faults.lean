import TestHooks.Proofs.Headers
import TestHooks.Proofs.Reformatting

/-!
# Where faults are found

A text that cannot be read has its fault at one of its tokens, unless the fault is that it ends (`fault_of_parse`). Each
reader finds faults only at tokens that it is given or that came before them.
-/

namespace TestHooks.Swift

open TestHooks.Reader Reader

/-- The fault is found at one of the positions, or at none of its own. -/
def Fault.Within (places : Position → Prop) (f : Fault) : Prop :=
  ∀ p, f.whereabouts = .at p → places p

/-- The tokens stand at some of the positions. -/
def StandAt (places : Position → Prop) (ts : List Token) : Prop :=
  ∀ t ∈ ts, places t.position

theorem StandAt.of_suffix {places : Position → Prop} {ts us : List Token} (h : StandAt places ts) (hs : us <:+ ts) :
    StandAt places us :=
  fun t ht => h t (hs.subset ht)

/-- A reader of tokens that stand at some of the positions finds faults only there. -/
def Located {α : Type} (places : Position → Prop) (p : Reader α) : Prop :=
  ∀ ⦃ts : List Token⦄ ⦃f : Fault⦄, StandAt places ts → p.run ts = .error f → f.Within places

theorem fault_within {places : Position → Prop} {t : Token} (h : places t.position) (cause : Cause) :
    (t.fault cause).Within places := by
  rintro p ⟨⟩
  exact h

theorem within_of_lastToken {places : Position → Prop} (cause : Cause) : (⟨cause, .lastToken⟩ : Fault).Within places :=
  nofun

/-! ### Single steps and loops -/

namespace Reader

variable {α β : Type} {places : Position → Prop}

/-- A reader that never fails finds no faults. -/
theorem located_of_ok {p : Reader α} (h : ∀ ts, ∃ found, p.run ts = .ok found) : Located places p := by
  intro ts f _ hr
  obtain ⟨found, hok⟩ := h ts
  rw [hok] at hr
  cases hr

theorem located_pure (x : α) : Located places (pure x : Reader α) := located_of_ok fun ts => ⟨(x, ts), rfl⟩

theorem located_look (f : List Token → α) : Located places (look f : Reader α) := located_of_ok fun ts => ⟨(f ts, ts), rfl⟩

theorem located_skipWhile (test : Token → Bool) : Located places (skipWhile test) := located_of_ok fun _ => ⟨_, rfl⟩

theorem located_statement : Located places statement := located_of_ok fun _ => ⟨_, rfl⟩

theorem located_modifiers : Located places modifiers := located_of_ok fun _ => ⟨_, rfl⟩

theorem located_fail {f : Fault} (h : f.Within places) : Located places (fail f : Reader α) := by
  rintro ts _ - ⟨⟩
  exact h

theorem located_bind {p : Reader α} {f : α → Reader β} (hp : Located places p) (hf : ∀ x, Located places (f x)) :
    Located places (p >>= f) := by
  intro ts fault hs hr
  rw [run_bind] at hr
  split at hr
  · next hx => exact hf _ (hs.of_suffix (p.suffix hx)) hr
  · next hx =>
    cases hr
    exact hp hs hx

theorem located_token (kind : TokenKind) : Located places (token kind) := by
  intro ts f hs hr
  cases ts with
  | nil =>
    cases hr
    exact within_of_lastToken _
  | cons t ts =>
    simp only [token] at hr
    split at hr
    · cases hr
    · cases hr
      exact fault_within (hs t List.mem_cons_self) _

/-- What is read after a token may find a fault at the token. -/
theorem located_token_bind {kind : TokenKind} {f : Token → Reader β}
    (hf : ∀ t : Token, places t.position → Located places (f t)) : Located places (token kind >>= f) := by
  intro ts fault hs hr
  rw [run_bind] at hr
  split at hr
  · next t rest hx =>
    obtain ⟨rfl, -⟩ := token_eq_ok.1 hx
    exact hf t (hs t List.mem_cons_self) (hs.of_suffix (List.suffix_cons _ _)) hr
  · next hx =>
    cases hr
    exact located_token kind hs hx

theorem located_optionally {test : Token → Bool} {p : Token → Reader α}
    (hp : ∀ t : Token, places t.position → Located places (p t)) : Located places (optionally test p) := by
  intro ts f hs hr
  cases ts with
  | nil => cases hr
  | cons t ts =>
    simp only [optionally] at hr
    split at hr
    · split at hr
      · cases hr
      · next hx =>
        cases hr
        exact hp t (hs t List.mem_cons_self) (hs.of_suffix (List.suffix_cons _ _)) hx
    · cases hr

theorem located_whileNext {test : Token → Bool} {p : Token → Reader α}
    (hp : ∀ t : Token, places t.position → Located places (p t)) : Located places (whileNext test p) := by
  intro ts f hs hr
  change whileNextRun test p ts = .error f at hr
  fun_induction whileNextRun test p ts with
  | case1 => cases hr
  | case2 => cases hr
  | case3 t ts ht x after hx fault hw ih =>
    cases hr
    exact ih ((hs.of_suffix (List.suffix_cons _ _)).of_suffix ((p t).suffix hx)) hw
  | case4 t ts ht fault hx =>
    cases hr
    exact hp t (hs t List.mem_cons_self) (hs.of_suffix (List.suffix_cons _ _)) hx
  | case5 => cases hr

theorem located_untilNext {test : Token → Bool} {p : Reader α} {h : Strict p} (hp : Located places p) :
    Located places (untilNext test p h) := by
  intro ts f hs hr
  change untilNextRun test p h ts = .error f at hr
  fun_induction untilNextRun test p h ts with
  | case1 => cases hr
  | case2 => cases hr
  | case3 ts _ x after hx fault hw ih =>
    cases hr
    exact ih (hs.of_suffix (p.suffix hx)) hw
  | case4 ts _ fault hx =>
    cases hr
    exact hp hs hx

theorem located_byCommas {p : Reader α} (hp : Located places p) : Located places (byCommas p) :=
  located_bind hp fun _ => located_bind (located_whileNext fun _ _ => hp) fun _ => located_pure _

/-! ### Phrases -/

theorem located_group {opener : Token} (h : places opener.position) (closer : TokenKind) :
    Located places (group closer opener) := by
  intro ts f _ hr
  simp only [group] at hr
  split at hr
  · cases hr
  · cases hr
    exact fault_within h _

theorem located_phraseBy {split : List Token → List Token × List Token} (h : ∀ ts, (split ts).1 ++ (split ts).2 = ts)
    (missing : Cause) : Located places (phraseBy split h missing) := by
  intro ts f hs hr
  simp only [phraseBy] at hr
  split at hr
  · cases hr
    exact within_of_lastToken _
  · next t rest hsplit =>
    cases hr
    have hts := h ts
    rw [hsplit, List.nil_append] at hts
    exact fault_within (hs t (hts ▸ List.mem_cons_self)) _
  · cases hr

theorem located_typeText (stops : List String) : Located places (typeText stops) := located_phraseBy _ _

theorem located_expressionText : Located places expressionText := located_phraseBy _ _

theorem located_condition {directive : Token} (h : places directive.position) : Located places (condition directive) := by
  intro ts f _ hr
  cases ts with
  | nil =>
    cases hr
    exact fault_within h _
  | cons t ts =>
    simp only [condition] at hr
    split at hr
    · cases hr
      exact fault_within h _
    · cases hr

/-! ### Headers -/

theorem located_attributes : Located places attributes :=
  located_whileNext fun _ _ => located_bind (located_optionally fun _ hp => located_group hp _) fun _ => located_pure _

theorem located_effects : Located places effects :=
  located_bind (located_whileNext fun _ _ =>
    located_bind (located_optionally fun _ hp => located_group hp _) fun _ => located_pure _) fun _ => located_pure _

theorem located_accessorNamed {t : Token} (h : places t.position) : Located places (accessorNamed t) := by
  unfold accessorNamed
  split
  · exact located_pure _
  · exact located_fail (fault_within h _)

theorem located_accessor : Located places accessor :=
  located_bind located_attributes fun _ => located_bind (located_skipWhile _) fun _ =>
    located_token_bind fun _ ht => located_bind (located_accessorNamed ht) fun _ =>
      located_bind (located_optionally fun _ hp => located_group hp _) fun _ => located_bind located_effects fun _ =>
        located_bind (located_optionally fun _ hp => located_group hp _) fun _ => located_pure _

theorem located_listedAccessors : Located places listedAccessors :=
  located_bind (located_untilNext located_accessor) fun _ => located_bind (located_token _) fun _ => located_pure _

theorem located_accessorBlock {opener : Token} (h : places opener.position) : Located places (accessorBlock opener) := by
  refine located_bind (located_look _) fun listed => ?_
  split
  · exact located_listedAccessors
  · exact located_bind (located_group h _) fun _ => located_pure _

theorem located_bindingName : Located places bindingName := by
  refine located_bind (located_optionally fun _ hp => located_group hp _) fun pattern => ?_
  cases pattern with
  | some pattern => exact located_pure _
  | none => exact located_bind (located_token _) fun _ => located_pure _

theorem located_binding : Located places binding :=
  located_bind located_bindingName fun _ => located_bind (located_optionally fun _ _ => located_typeText _) fun _ =>
    located_bind (located_optionally fun _ _ => located_expressionText) fun _ =>
      located_bind (located_optionally fun _ hp => located_accessorBlock hp) fun _ => located_pure _

theorem located_operatorName : Located places operatorName := by
  intro ts f hs hr
  cases ts with
  | nil =>
    cases hr
    exact within_of_lastToken _
  | cons t ts =>
    simp only [operatorName] at hr
    split at hr
    · cases hr
    · cases hr
      exact fault_within (hs t List.mem_cons_self) _

theorem located_functionName : Located places functionName := by
  refine located_bind (located_optionally fun _ _ => located_pure _) fun found => ?_
  cases found with
  | some t => exact located_pure _
  | none => exact located_bind located_operatorName fun _ => located_pure _

theorem located_genericClause : Located places genericClause :=
  located_optionally fun _ hp => located_bind (located_group hp _) fun _ => located_pure _

theorem located_parameter : Located places parameter :=
  located_bind located_attributes fun _ => located_bind (located_token _) fun _ =>
    located_bind (located_optionally fun _ _ => located_pure _) fun _ => located_bind (located_token _) fun _ =>
      located_bind (located_typeText _) fun _ =>
        located_bind (located_optionally fun _ _ => located_expressionText) fun _ => located_pure _

theorem located_parameterUnlessClosed : Located places parameterUnlessClosed := by
  refine located_bind (located_look _) fun closed => ?_
  split
  · exact located_pure _
  · exact located_bind located_parameter fun _ => located_pure _

theorem located_parameterClause : Located places parameterClause :=
  located_bind (located_token _) fun _ => located_bind located_parameterUnlessClosed fun _ =>
    located_bind (located_whileNext fun _ _ => located_parameterUnlessClosed) fun _ =>
      located_bind (located_token _) fun _ => located_pure _

theorem located_functionRequirements : Located places functionRequirements :=
  located_optionally fun _ _ => located_skipWhile _

theorem located_function : Located places function :=
  located_bind located_functionName fun _ => located_bind located_genericClause fun _ =>
    located_bind located_parameterClause fun _ => located_bind located_effects fun _ =>
      located_bind (located_optionally fun _ _ => located_typeText _) fun _ =>
        located_bind located_functionRequirements fun _ =>
          located_bind (located_optionally fun _ hp => located_group hp _) fun _ => located_pure _

theorem located_typeName (keyword : TypeKeyword) : Located places (typeName keyword) := by
  unfold typeName
  split
  · exact located_bind (located_typeText _) fun _ => located_pure _
  · exact located_bind (located_token _) fun _ => located_bind located_genericClause fun _ => located_pure _

theorem located_inheritance : Located places inheritance :=
  located_bind (located_optionally fun _ _ => located_byCommas (located_typeText _)) fun _ => located_pure _

theorem located_typeHeader (keyword : TypeKeyword) : Located places (typeHeader keyword) :=
  located_bind (located_typeName keyword) fun _ => located_bind located_inheritance fun _ =>
    located_bind (located_optionally fun _ _ => located_skipWhile _) fun _ =>
      located_bind (located_token _) fun _ => located_pure _

theorem located_otherName (keyword : String) : Located places (otherName keyword) := by
  refine located_bind (located_look _) fun next => located_bind located_statement fun _ => ?_
  cases next with
  | some t => exact located_pure _
  | none => exact located_pure _

theorem located_directive {t : Token} (h : places t.position) : Located places (directive t) := by
  unfold directive
  split
  · exact located_fail (fault_within h _)
  · exact located_bind (located_optionally fun _ hp => located_group hp _) fun _ => located_pure _

end Reader

/-! ### Declarations -/

section Declarations

variable {places : Position → Prop}

theorem located_headFrom (t : Token) : Located places (headFrom t) :=
  located_bind located_attributes fun _ => located_bind located_modifiers fun _ => located_pure _

theorem located_flatDeclaration (strict : Bool) (head : Head) {k : Token} (h : places k.position)
    (introducer : Option Introducer) : Located places (flatDeclaration strict head k introducer) := by
  have hstatement : Located places (statementOrFault strict head k) := by
    unfold statementOrFault
    split
    · exact located_fail (fault_within h _)
    · exact located_bind (located_of_ok fun _ => ⟨_, rfl⟩) fun _ => located_pure _
  unfold flatDeclaration
  split
  · exact located_bind (located_byCommas located_binding) fun _ => located_pure _
  · exact located_bind located_function fun _ => located_pure _
  · exact located_bind (located_otherName _) fun _ => located_pure _
  · exact hstatement
  · exact hstatement

theorem located_clauseCondition (keyword : ClauseKeyword) {directive : Token} (h : places directive.position) :
    Located places (clauseCondition keyword directive) := by
  unfold clauseCondition
  split
  · exact located_pure _
  · exact located_condition h

/-- The directive that ends a clause is one of the tokens of the clause. -/
theorem mark_mem {strict : Bool} {start t : Token} {ts left : List Token} {found : List Decl} {mark : ClauseMark}
    (h : clauseMembersRun strict start ts = .ok ((found, t, mark), left)) : t ∈ ts := by
  obtain ⟨u, rest, hts, hc⟩ := clauseMembersRun_cases h
  have hl : ts.length = rest.length + 1 := by rw [hts, List.length_cons]
  rw [hts]
  rcases hc with ⟨m, -, -, hm, -⟩ | ⟨-, -, ho⟩ | ⟨-, -, -, first, after, others, hd, ho, -⟩
  · cases hm
    exact List.mem_cons_self
  · exact List.mem_cons_of_mem _ (mark_mem ho)
  · exact List.mem_cons_of_mem _ ((declarationRun_suffix hd).subset (mark_mem ho))
termination_by ts.length
decreasing_by
  · omega
  · have := (declarationRun_suffix hd).length_le
    omega

/-- A sequence of steps fails in its first step or after it. -/
theorem bind_eq_error {ε α β : Type} {r : Except ε α} {f : α → Except ε β} {e : ε} :
    r >>= f = .error e ↔ r = .error e ∨ ∃ x, r = .ok x ∧ f x = .error e := by
  cases r with
  | error e' => simp [Bind.bind, Except.bind]
  | ok x => simp [Bind.bind, Except.bind]

mutual

theorem within_of_declarationRun {strict : Bool} {t : Token} {ts : List Token} {f : Fault} (hs : StandAt places (t :: ts))
    (h : declarationRun strict t ts = .error f) : f.Within places := by
  have ht : places t.position := hs t List.mem_cons_self
  have hts : StandAt places ts := hs.of_suffix (List.suffix_cons _ _)
  rw [declarationRun_eq] at h
  split at h
  · split at h
    · rcases bind_eq_error.1 h with h | ⟨c, -, h⟩
      · exact within_of_clausesRun ht ht hts h
      · cases h
    · rcases bind_eq_error.1 h with h | ⟨d, -, h⟩
      · exact located_directive ht hts h
      · cases h
  rcases bind_eq_error.1 h with h | ⟨⟨head, after⟩, hh, h⟩
  · exact located_headFrom t hs h
  have hafter : StandAt places after := hs.of_suffix ((headFrom t).suffix hh)
  cases after with
  | nil =>
    cases h
    exact fault_within ht _
  | cons k rest =>
    have hk : places k.position := hafter k List.mem_cons_self
    have hrest : StandAt places rest := hafter.of_suffix (List.suffix_cons _ _)
    have hle : rest.length ≤ ts.length := (suffix_of_cons_suffix_cons ((headFrom t).suffix hh)).length_le
    change declarationAfter strict head k rest = .error f at h
    by_cases hi : ∃ keyword, Introducer.ofToken? k = some (.type keyword)
    · obtain ⟨keyword, hi⟩ := hi
      rw [declarationAfter, hi] at h
      rcases bind_eq_error.1 h with h | ⟨⟨header, inside⟩, hheader, h⟩
      · exact located_typeHeader keyword hrest h
      rcases bind_eq_error.1 h with h | ⟨m, -, h⟩
      · have hlt := strict_typeHeader keyword hheader
        exact within_of_membersRun (hrest.of_suffix ((typeHeader keyword).suffix hheader)) h
      · cases h
    · rw [not_exists] at hi
      rw [declarationAfter_flat strict rest head hi] at h
      exact located_flatDeclaration strict head hk _ hrest h
termination_by 3 * ts.length + 2
decreasing_by
  all_goals omega

theorem within_of_membersRun {ts : List Token} {f : Fault} (hs : StandAt places ts) (h : membersRun ts = .error f) :
    f.Within places := by
  rcases hts : ts with _ | ⟨t, rest⟩
  · rw [hts] at h
    rw [membersRun, members] at h
    cases h
    exact nofun
  · rw [hts] at hs h
    have hl : ts.length = rest.length + 1 := by rw [hts, List.length_cons]
    have hrest : StandAt places rest := hs.of_suffix (List.suffix_cons _ _)
    rw [membersRun_eq] at h
    split at h
    · cases h
    split at h
    · exact within_of_membersRun hrest h
    rcases bind_eq_error.1 h with h | ⟨⟨found, after⟩, hd, h⟩
    · exact within_of_declarationRun hs h
    rcases bind_eq_error.1 h with h | ⟨m, -, h⟩
    · have hle := (declarationRun_suffix hd).length_le
      exact within_of_membersRun (hrest.of_suffix (declarationRun_suffix hd)) h
    · cases h
termination_by 3 * ts.length
decreasing_by
  all_goals omega

theorem within_of_clausesRun {strict : Bool} {start mark : Token} {keyword : ClauseKeyword} {ts : List Token} {f : Fault}
    (hstart : places start.position) (hmark : places mark.position) (hs : StandAt places ts)
    (h : clausesRun strict start mark keyword ts = .error f) : f.Within places := by
  rw [clausesRun_eq] at h
  rcases bind_eq_error.1 h with h | ⟨⟨condition, inside⟩, hc, h⟩
  · exact located_clauseCondition keyword hmark hs h
  have hsuffix : inside <:+ ts := (clauseCondition keyword mark).suffix hc
  have hinside : StandAt places inside := hs.of_suffix hsuffix
  have hle : inside.length ≤ ts.length := hsuffix.length_le
  rcases bind_eq_error.1 h with h | ⟨⟨⟨found, t, m⟩, after⟩, hm, h⟩
  · exact within_of_clauseMembersRun hstart hinside h
  have hlt : after.length < inside.length := (clauseMembersRun_suffix hm).2
  cases m with
  | finish => cases h
  | next keyword' =>
    rcases bind_eq_error.1 h with h | ⟨o, -, h⟩
    · exact within_of_clausesRun hstart (hinside t (mark_mem hm)) (hinside.of_suffix (clauseMembersRun_suffix hm).1) h
    · cases h
termination_by 3 * ts.length + 1
decreasing_by
  all_goals omega

theorem within_of_clauseMembersRun {strict : Bool} {start : Token} {ts : List Token} {f : Fault}
    (hstart : places start.position) (hs : StandAt places ts) (h : clauseMembersRun strict start ts = .error f) :
    f.Within places := by
  rcases hts : ts with _ | ⟨t, rest⟩
  · rw [hts] at h
    rw [clauseMembersRun, clauseMembers] at h
    cases h
    exact fault_within hstart _
  · rw [hts] at hs h
    have hl : ts.length = rest.length + 1 := by rw [hts, List.length_cons]
    have hrest : StandAt places rest := hs.of_suffix (List.suffix_cons _ _)
    rw [clauseMembersRun_eq] at h
    split at h
    · cases h
    split at h
    · exact within_of_clauseMembersRun hstart hrest h
    split at h
    · cases h
      exact fault_within hstart _
    rcases bind_eq_error.1 h with h | ⟨⟨found, after⟩, hd, h⟩
    · exact within_of_declarationRun hs h
    rcases bind_eq_error.1 h with h | ⟨m, -, h⟩
    · have hle := (declarationRun_suffix hd).length_le
      exact within_of_clauseMembersRun hstart (hrest.of_suffix (declarationRun_suffix hd)) h
    · cases h
termination_by 3 * ts.length
decreasing_by
  all_goals omega

end

theorem within_of_topLevel {ts : List Token} {f : Fault} (hs : StandAt places ts) (h : topLevel ts = .error f) :
    f.Within places := by
  rcases hts : ts with _ | ⟨t, rest⟩
  · rw [hts] at h
    rw [topLevel] at h
    cases h
  · rw [hts] at hs h
    have hl : ts.length = rest.length + 1 := by rw [hts, List.length_cons]
    have hrest : StandAt places rest := hs.of_suffix (List.suffix_cons _ _)
    rw [topLevel_eq] at h
    split at h
    · exact within_of_topLevel hrest h
    split at h
    · cases h
      exact fault_within (hs t List.mem_cons_self) _
    rcases bind_eq_error.1 h with h | ⟨⟨found, after⟩, hd, h⟩
    · exact within_of_declarationRun hs h
    have hle := (declarationRun_suffix hd).length_le
    cases ho : topLevel after with
    | ok others =>
      rw [ho] at h
      cases h
    | error fault =>
      rw [ho] at h
      cases h
      exact within_of_topLevel (hrest.of_suffix (declarationRun_suffix hd)) ho
termination_by ts.length
decreasing_by
  all_goals omega

end Declarations

/-! ### Files -/

/-- A file that cannot be parsed has no position for its error, or that of a token, or the one where the lexemes end. -/
theorem fault_of_parse {text : String} {e : SyntaxError} (h : parse text = .error e) :
    (Tokens.ofText text).failure = some e ∨ e.position = none ∨
      ∃ t ∈ (Tokens.ofText text).tokens, e.position = some t.position := by
  unfold parse at h
  dsimp only at h
  split at h
  · next he =>
    cases h
    exact .inl he
  right
  cases ht : topLevel (Tokens.ofText text).tokens with
  | ok found =>
    rw [ht] at h
    cases h
  | error f =>
    have hwithin : f.Within fun p => ∃ t ∈ (Tokens.ofText text).tokens, p = t.position :=
      within_of_topLevel (fun t hm => ⟨t, hm, rfl⟩) ht
    rw [ht] at h
    cases h
    unfold Fault.toError
    split
    · next p hp =>
      obtain ⟨t, hm, rfl⟩ := hwithin p hp
      exact .inr ⟨t, hm, rfl⟩
    · cases hl : (Tokens.ofText text).tokens.getLast? with
      | none => exact .inl rfl
      | some t => exact .inr ⟨t, List.mem_of_getLast? hl, rfl⟩
    · exact .inl rfl

end TestHooks.Swift
