import TestHooks.Proofs.BlindHeaders
import TestHooks.Proofs.Openings
import TestHooks.Proofs.Placing

/-!
# Reformatting

Blanks may be put in and taken out wherever no two tokens come to touch or cease to, and no line break comes or goes:
a text without comments then reads as before, but for positions, and what is made of it is the same
(`reformatting_invisible`). The proof reads two lists of alike tokens side by side (`declaration_alike`).
-/

namespace TestHooks.Swift

open TestHooks.Reader TestHooks.Text Reader

/-! ### Trees without positions -/

def Head.unplaced (h : Head) : Head :=
  ⟨h.attributes.map Attribute.unplaced, h.modifiers, Place.origin.toPosition⟩

mutual

/-- The declaration without the places in it. -/
def Decl.unplaced : Decl → Decl
  | .group head header members => .group head.unplaced header (unplacedMembers members)
  | .variableList head keyword bindings => .variableList head.unplaced keyword bindings
  | .function head signature => .function head.unplaced signature
  | .conditional _ clauses => .conditional Place.origin.toPosition (unplacedClauses clauses)
  | .other head keyword name => .other head.unplaced keyword name

def unplacedMembers : List Decl → List Decl
  | [] => []
  | d :: ds => d.unplaced :: unplacedMembers ds

def unplacedClauses : List Clause → List Clause
  | [] => []
  | .mk keyword condition members :: cs => .mk keyword condition (unplacedMembers members) :: unplacedClauses cs

end

theorem unplacedMembers_append (ds es : List Decl) :
    unplacedMembers (ds ++ es) = unplacedMembers ds ++ unplacedMembers es := by
  induction ds with
  | nil => rfl
  | cons d ds ih => rw [List.cons_append, unplacedMembers, unplacedMembers, ih, List.cons_append]

theorem unplacedMembers_toList {x y : Option Decl} (h : x.map Decl.unplaced = y.map Decl.unplaced) :
    unplacedMembers x.toList = unplacedMembers y.toList := by
  cases x <;> cases y <;> simp_all [unplacedMembers]

/-! ### Reading in full -/

/-- A declaration from its keyword `k` on. -/
def declarationAfter (strict : Bool) (head : Head) (k : Token) (ts : List Token) :
    Except Fault (Option Decl × List Token) :=
  match Introducer.ofToken? k with
  | some (.type keyword) =>
    (typeHeader keyword).run ts >>= fun h => membersRun h.2 >>= fun m => .ok (some (.group head h.1 m.1), m.2)
  | introducer => (flatDeclaration strict head k introducer).run ts

section Equations

variable (strict : Bool) (t start mark : Token) (ts : List Token)

theorem declarationAfter_flat (head : Head) {k : Token}
    (hi : ∀ keyword, Introducer.ofToken? k ≠ some (.type keyword)) :
    declarationAfter strict head k ts = (flatDeclaration strict head k (Introducer.ofToken? k)).run ts := by
  rw [declarationAfter]
  split
  · next keyword hk => exact absurd hk (hi keyword)
  · rfl

theorem declarationRun_eq :
    declarationRun strict t ts =
      if t.kind = .hashWord then
        if t.text = "#if" then
          clausesRun strict t t .ifClause ts >>= fun c => .ok (some (.conditional t.position c.1), c.2)
        else (directive t).run ts >>= fun d => .ok (some (.other ⟨[], [], t.position⟩ t.text ""), d.2)
      else (headFrom t).run (t :: ts) >>= fun h =>
        match h.2 with
        | [] => .error (t.fault .onlyAttributes)
        | k :: rest => declarationAfter strict h.1 k rest := by
  rw [declarationRun, declaration]
  split
  · split
    · rw [clausesRun]
      cases clauses strict t t .ifClause ts <;> rfl
    · split
      · next hd =>
        conv_rhs => rw [hd]
        rfl
      · next hd =>
        conv_rhs => rw [hd]
        rfl
  · split
    · next hh =>
      conv_rhs => rw [hh]
      rfl
    · next hh =>
      conv_rhs => rw [hh]
      rfl
    · next head k rest hh =>
      conv_rhs => rw [hh]
      change _ = declarationAfter strict head k rest
      dsimp only
      split
      · next keyword hi =>
        rw [declarationAfter, hi]
        dsimp only
        split
        · next ht =>
          conv_rhs => rw [ht]
          rfl
        · next inside ht =>
          conv_rhs => rw [ht]
          change _ = membersRun inside >>= _
          rw [membersRun]
          cases members inside <;> rfl
      · next hi =>
        rw [declarationAfter_flat strict rest head hi]
        split
        · next hf => exact hf.symm
        · next hf => exact hf.symm

theorem membersRun_eq :
    membersRun (t :: ts) =
      if t.kind = .rightBrace then .ok ([], ts)
      else if t.kind = .semicolon then membersRun ts
      else declarationRun true t ts >>= fun d => membersRun d.2 >>= fun m => .ok (d.1.toList ++ m.1, m.2) := by
  split
  · next hb => exact membersRun_close hb
  · next hb =>
    split
    · next hs => exact membersRun_semicolon hs
    · next hs =>
      rw [membersRun, members, if_neg hb, if_neg hs, declarationRun]
      cases declaration true t ts with
      | error fault => rfl
      | ok d =>
        simp only
        change _ = membersRun d.1.2 >>= _
        rw [membersRun]
        cases members d.1.2 <;> rfl

theorem clausesRun_eq (keyword : ClauseKeyword) :
    clausesRun strict start mark keyword ts =
      (clauseCondition keyword mark).run ts >>= fun c => clauseMembersRun strict start c.2 >>= fun m =>
        match m.1.2.2 with
        | .finish => .ok ([.mk keyword c.1 m.1.1], m.2)
        | .next keyword' => clausesRun strict start m.1.2.1 keyword' m.2 >>= fun o =>
          .ok (.mk keyword c.1 m.1.1 :: o.1, o.2) := by
  rw [clausesRun, clauses]
  split
  · next hc =>
    conv_rhs => rw [hc]
    rfl
  · next condition inside hc =>
    conv_rhs => rw [hc]
    change _ = clauseMembersRun strict start inside >>= _
    rw [clauseMembersRun]
    simp only
    split
    · next hm =>
      conv_rhs => rw [hm]
      rfl
    · next hm =>
      conv_rhs => rw [hm]
      rfl
    · next ms t keyword' after _ hm =>
      conv_rhs => rw [hm]
      change _ = clausesRun strict start t keyword' after >>= _
      rw [clausesRun]
      cases clauses strict start t keyword' after <;> rfl

theorem clauseMembersRun_eq :
    clauseMembersRun strict start (t :: ts) =
      match clauseMark? t with
      | some mark => .ok (([], t, mark), ts)
      | none =>
        if t.kind = .semicolon then clauseMembersRun strict start ts
        else if t.kind = .rightBrace then .error (start.fault .unterminatedCondition)
        else declarationRun strict t ts >>= fun d => clauseMembersRun strict start d.2 >>= fun m =>
          .ok ((d.1.toList ++ m.1.1, m.1.2), m.2) := by
  split
  · next hm => exact clauseMembersRun_mark hm
  · next hm =>
    split
    · next hs => exact clauseMembersRun_semicolon hm hs
    · next hs =>
      rw [clauseMembersRun, clauseMembers]
      split
      · next he =>
        rw [hm] at he
        cases he
      · rw [if_neg hs]
        split
        · rfl
        · rw [declarationRun]
          cases declaration strict t ts with
          | error fault => rfl
          | ok d =>
            simp only
            change _ = clauseMembersRun strict start d.1.2 >>= _
            rw [clauseMembersRun]
            cases clauseMembers strict start d.1.2 <;> rfl

theorem topLevel_eq :
    topLevel (t :: ts) =
      if t.kind = .semicolon then topLevel ts
      else if t.kind = .rightBrace then .error (t.fault .unbalancedBrace)
      else declarationRun false t ts >>= fun d => (topLevel d.2).map (d.1.toList ++ ·) := by
  rw [topLevel]
  split
  · rfl
  · split
    · rfl
    · rw [declarationRun]
      cases declaration false t ts <;> rfl

end Equations

/-! ### Two readings side by side -/

theorem introducer_like {t u : Token} (h : t.Like u) : Introducer.ofToken? t = Introducer.ofToken? u := by
  rw [Introducer.ofToken?, Introducer.ofToken?, h.kind, h.text]

theorem clauseMark?_like {t u : Token} (h : t.Like u) : clauseMark? t = clauseMark? u := by
  rw [clauseMark?, clauseMark?, h.kind, h.text]

theorem blind_clauseCondition (keyword : ClauseKeyword) {t u : Token} (h : t.Like u) :
    Blind Eq (clauseCondition keyword t) (clauseCondition keyword u) := by
  unfold clauseCondition
  split
  · exact blind_pure rfl
  · exact blind_condition h

theorem blind_headFrom (t u : Token) : Blind (fun x y => x.unplaced = y.unplaced) (headFrom t) (headFrom u) := by
  refine blind_attributes.bind fun as bs ha => blind_modifiers.bind fun ms ns hm => blind_pure ?_
  have hattributes : as.map Attribute.unplaced = bs.map Attribute.unplaced := by
    rwa [← List.forall₂_eq_eq_eq, List.forall₂_map_left_iff, List.forall₂_map_right_iff]
  rw [Head.unplaced, Head.unplaced, hattributes, hm]

theorem blind_statementOrFault (strict : Bool) {head head' : Head} (hh : head.unplaced = head'.unplaced) {t u : Token}
    (h : t.Like u) :
    Blind (fun x y => x.map Decl.unplaced = y.map Decl.unplaced) (statementOrFault strict head t)
      (statementOrFault strict head' u) := by
  have hattributes : head.attributes.isEmpty = head'.attributes.isEmpty := by
    have := congrArg (·.attributes.isEmpty) hh
    simpa [Head.unplaced] using this
  have hmodifiers : head.modifiers = head'.modifiers := congrArg (·.modifiers) hh
  unfold statementOrFault
  rw [hattributes, hmodifiers]
  split
  · exact blind_fail (fault_cause (by rw [h.text]))
  · have hstatement : Blind (fun _ _ => True) (statementFrom t) (statementFrom u) := by
      intro ts us hs
      simp only [statementFrom, statementDepth_like h]
      exact .ok trivial (hs.afterStatement _ _)
    exact hstatement.bind fun _ _ _ => blind_pure rfl

theorem blind_flatDeclaration (strict : Bool) {head head' : Head} (hh : head.unplaced = head'.unplaced) {t u : Token}
    (h : t.Like u) (introducer : Option Introducer) :
    Blind (fun x y => x.map Decl.unplaced = y.map Decl.unplaced) (flatDeclaration strict head t introducer)
      (flatDeclaration strict head' u introducer) := by
  unfold flatDeclaration
  split
  · exact (blind_byCommas blind_binding).bind fun _ _ hb =>
      blind_pure (by rw [Option.map_some, Option.map_some, Decl.unplaced, Decl.unplaced, hh, hb])
  · exact blind_function.bind fun _ _ hf =>
      blind_pure (by rw [Option.map_some, Option.map_some, Decl.unplaced, Decl.unplaced, hh, hf])
  · exact (blind_otherName _).bind fun _ _ ho =>
      blind_pure (by rw [Option.map_some, Option.map_some, Decl.unplaced, Decl.unplaced, hh, ho])
  · exact blind_statementOrFault strict hh h
  · exact blind_statementOrFault strict hh h

theorem Alike.length_eq {ts us : List Token} (h : Alike ts us) : ts.length = us.length :=
  h.like.length_eq

mutual

/-- Declarations that are alike are read alike. -/
theorem declaration_alike (strict : Bool) {t u : Token} {ts us : List Token} (ht : t.Like u)
    (hs : List.Forall₂ Token.Alike ts us) :
    Same (fun x y => x.map Decl.unplaced = y.map Decl.unplaced) (declarationRun strict t ts)
      (declarationRun strict u us) := by
  rw [declarationRun_eq, declarationRun_eq, ht.kind, ht.text]
  split
  · split
    · exact (clauses_alike strict .ifClause ht ht (.of_forall₂ hs)).bind fun _ _ _ _ _ _ hc hl =>
        .ok (by rw [Option.map_some, Option.map_some, Decl.unplaced, Decl.unplaced, hc]) hl
    · exact (blind_directive ht (.of_forall₂ hs)).bind fun _ _ _ _ _ _ _ hl => .ok rfl hl
  · refine (blind_headFrom t u (.cons ht hs)).bind fun head head' left left' hr _ hh hl => ?_
    cases hl with
    | nil => exact .error rfl
    | @cons k k' rest rest' hk hrest =>
      have hshorter := (suffix_of_cons_suffix_cons ((headFrom t).suffix hr)).length_le
      have hinside := Alike.of_forall₂ hrest
      dsimp only
      rw [declarationAfter, declarationAfter, introducer_like hk]
      split
      · next keyword _ =>
        refine (blind_typeHeader keyword hinside).bind fun header header' inside inside' hi _ hheader hl => ?_
        have := strict_typeHeader keyword hi
        refine (members_alike hl).bind fun ms ms' _ _ _ _ hm hl => .ok ?_ hl
        rw [Option.map_some, Option.map_some, Decl.unplaced, Decl.unplaced, hh, hheader, hm]
      · exact blind_flatDeclaration strict hh hk _ hinside
termination_by 3 * ts.length + 2
decreasing_by
  · omega
  · dsimp only at *
    omega

theorem members_alike {ts us : List Token} (hs : Alike ts us) :
    Same (fun x y => unplacedMembers x = unplacedMembers y) (membersRun ts) (membersRun us) := by
  cases hs with
  | nil =>
    rw [membersRun, members]
    exact .error rfl
  | @cons t u ts us ht hs =>
    rw [membersRun_eq, membersRun_eq, ht.kind]
    split
    · exact .ok rfl (.of_forall₂ hs)
    · split
      · exact members_alike (.of_forall₂ hs)
      · refine (declaration_alike true ht hs).bind fun d d' left left' hr _ hd hl => ?_
        have := (declarationRun_suffix hr).length_le
        refine (members_alike hl).bind fun ms ms' _ _ _ _ hm hl => .ok ?_ hl
        rw [unplacedMembers_append, unplacedMembers_append, unplacedMembers_toList hd, hm]
termination_by 3 * ts.length
decreasing_by
  all_goals subst_vars
  all_goals simp only [List.length_cons]
  all_goals omega

theorem clauses_alike (strict : Bool) (keyword : ClauseKeyword) {start start' mark mark' : Token} {ts us : List Token}
    (hstart : start.Like start') (hmark : mark.Like mark') (hs : Alike ts us) :
    Same (fun x y => unplacedClauses x = unplacedClauses y) (clausesRun strict start mark keyword ts)
      (clausesRun strict start' mark' keyword us) := by
  rw [clausesRun_eq, clausesRun_eq]
  refine (blind_clauseCondition keyword hmark hs).bind fun condition _ inside _ hr _ hc hl => ?_
  have := (clauseCondition keyword mark).length_le hr
  subst hc
  refine (clauseMembers_alike strict hstart hl).bind fun found found' left left' hr' _ hfound hl => ?_
  have := (clauseMembersRun_suffix hr').2
  obtain ⟨ms, t, m⟩ := found
  obtain ⟨ms', t', m'⟩ := found'
  obtain ⟨hms, ht, rfl⟩ := hfound
  cases m with
  | finish => exact .ok (by rw [unplacedClauses, unplacedClauses, hms]; rfl) hl
  | next keyword' =>
    exact (clauses_alike strict keyword' hstart ht hl).bind fun _ _ _ _ _ _ ho hl =>
      .ok (by rw [unplacedClauses, unplacedClauses, hms, ho]) hl
termination_by 3 * ts.length + 1
decreasing_by
  all_goals omega

theorem clauseMembers_alike (strict : Bool) {start start' : Token} {ts us : List Token} (hstart : start.Like start')
    (hs : Alike ts us) :
    Same (fun x y => unplacedMembers x.1 = unplacedMembers y.1 ∧ x.2.1.Like y.2.1 ∧ x.2.2 = y.2.2)
      (clauseMembersRun strict start ts) (clauseMembersRun strict start' us) := by
  cases hs with
  | nil =>
    rw [clauseMembersRun, clauseMembersRun, clauseMembers, clauseMembers]
    exact .error rfl
  | @cons t u ts us ht hs =>
    rw [clauseMembersRun_eq, clauseMembersRun_eq, clauseMark?_like ht, ht.kind]
    split
    · exact .ok ⟨rfl, ht, rfl⟩ (.of_forall₂ hs)
    · split
      · exact clauseMembers_alike strict hstart (.of_forall₂ hs)
      · split
        · exact .error rfl
        · refine (declaration_alike strict ht hs).bind fun d d' left left' hr _ hd hl => ?_
          have := (declarationRun_suffix hr).length_le
          refine (clauseMembers_alike strict hstart hl).bind fun ms ms' _ _ _ _ hm hl => .ok ⟨?_, hm.2⟩ hl
          rw [unplacedMembers_append, unplacedMembers_append, unplacedMembers_toList hd, hm.1]
termination_by 3 * ts.length
decreasing_by
  all_goals subst_vars
  all_goals simp only [List.length_cons]
  all_goals omega

end

/-- What is read, without positions, or why nothing is. -/
def outline {ε : Type} (cause : ε → Cause) : Except ε (List Decl) → Except Cause (List Decl)
  | .ok ds => .ok (unplacedMembers ds)
  | .error e => .error (cause e)

/-- Files that are alike are read alike. -/
theorem topLevel_alike {ts us : List Token} (hs : Alike ts us) :
    outline Fault.cause (topLevel ts) = outline Fault.cause (topLevel us) := by
  induction hn : ts.length using Nat.strongRecOn generalizing ts us with
  | ind n ih =>
    cases hs with
    | nil => rfl
    | @cons t u ts us ht hs =>
      rw [List.length_cons] at hn
      rw [topLevel_eq, topLevel_eq, ht.kind]
      split
      · exact ih ts.length (by omega) (.of_forall₂ hs) rfl
      · split
        · rfl
        · have hd := declaration_alike false ht hs
          revert hd
          cases hr : declarationRun false t ts with
          | error f =>
            cases declarationRun false u us with
            | error g =>
              intro hd
              cases hd with
              | error h => exact congrArg Except.error h
            | ok q =>
              intro hd
              cases hd
          | ok p =>
            cases declarationRun false u us with
            | error g =>
              intro hd
              cases hd
            | ok q =>
              intro hd
              cases hd with
              | @ok x y left left' hx hl =>
                have := (declarationRun_suffix hr).length_le
                have hrest := ih left.length (by omega) hl rfl
                change outline _ ((topLevel left).map _) = outline _ ((topLevel left').map _)
                revert hrest
                cases topLevel left <;> cases topLevel left' <;> intro hrest
                · exact hrest
                · cases hrest
                · cases hrest
                · change Except.ok _ = Except.ok _
                  change Except.ok _ = Except.ok _ at hrest
                  rw [unplacedMembers_append, unplacedMembers_append, unplacedMembers_toList hx, Except.ok.inj hrest]

/-! ### Texts -/

/-- The text has no comments. -/
def CommentFree (text : String) : Prop :=
  ∀ e ∈ (Cut.ofText text.toList).elements, e.shape ≠ .lineComment ∧ e.shape ≠ .blockComment

/-- What the reader of a token goes by, but for whether it touches the one before. -/
def Token.look (t : Token) : TokenKind × String × Bool := (t.kind, t.text, t.newlineBefore)

/-- Both texts are cut into tokens to their ends, these agree one by one, and those that touch the one before them are
the same in both. -/
structure Reformatted (text text' : String) : Prop where
  complete : (Tokens.ofText text).failure = none
  complete' : (Tokens.ofText text').failure = none
  looks : (Tokens.ofText text).tokens.map Token.look = (Tokens.ofText text').tokens.map Token.look
  touching : (Tokens.ofText text).tokens.tail.map Token.isAttached =
    (Tokens.ofText text').tokens.tail.map Token.isAttached

theorem Token.like_of_look {t u : Token} (h : t.look = u.look) : t.Like u := by
  simp only [look, Prod.mk.injEq] at h
  exact ⟨h.1, h.2.1, h.2.2⟩

/-- Without comments only blanks stand between tokens. -/
theorem gap_ofElements {es : List Element} {rest : List Char} (hf : Fitting es rest)
    (hc : ∀ e ∈ es, e.shape ≠ .lineComment ∧ e.shape ≠ .blockComment) {place : Place} {gap : List Char}
    (hg : ∀ c ∈ gap, isBlank c = true) :
    ∀ t ∈ Token.ofElements place gap es, ∀ c ∈ t.gap.toList, isBlank c = true := by
  induction es generalizing place gap with
  | nil => simp [Token.ofElements]
  | cons e es ih =>
    have hes := fun f hf => hc f (List.mem_cons_of_mem _ hf)
    rw [Token.ofElements]
    cases he : e.shape with
    | lexeme kind =>
      intro t ht
      rcases List.mem_cons.1 ht with rfl | ht
      · simpa using hg
      · exact ih hf.2 hes (by simp) t ht
    | blank =>
      refine ih hf.2 hes fun c hc => ?_
      rcases List.mem_append.1 hc with hc | hc
      · exact hg c hc
      · exact blank_chars hf.1 he c hc
    | lineComment => exact absurd he (hc e List.mem_cons_self).1
    | blockComment => exact absurd he (hc e List.mem_cons_self).2

theorem gap_ofText {text : String} (h : CommentFree text) :
    ∀ t ∈ (Tokens.ofText text).tokens, ∀ c ∈ t.gap.toList, isBlank c = true :=
  gap_ofElements (fitting_ofText _) h (by simp)

theorem forall₂_alike {ts us : List Token} (hlooks : ts.map Token.look = us.map Token.look)
    (htouching : ts.map Token.isAttached = us.map Token.isAttached)
    (ht : ∀ t ∈ ts, ∀ c ∈ t.gap.toList, isBlank c = true) (hu : ∀ u ∈ us, ∀ c ∈ u.gap.toList, isBlank c = true) :
    List.Forall₂ Token.Alike ts us := by
  induction ts generalizing us with
  | nil =>
    cases us with
    | nil => exact .nil
    | cons u us => cases hlooks
  | cons t ts ih =>
    cases us with
    | nil => cases hlooks
    | cons u us =>
      simp only [List.map_cons, List.cons.injEq] at hlooks htouching
      rw [List.forall_mem_cons] at ht hu
      exact .cons ⟨Token.like_of_look hlooks.1, htouching.1, .inr ⟨ht.1, hu.1⟩⟩ (ih hlooks.2 htouching.2 ht.2 hu.2)

theorem Reformatted.alike {text text' : String} (h : Reformatted text text') (hc : CommentFree text)
    (hc' : CommentFree text') : Alike (Tokens.ofText text).tokens (Tokens.ofText text').tokens := by
  have hlooks := h.looks
  have htouching := h.touching
  have hgap := gap_ofText hc
  have hgap' := gap_ofText hc'
  revert hlooks htouching hgap hgap'
  cases (Tokens.ofText text).tokens <;> cases (Tokens.ofText text').tokens <;> intro hlooks htouching hgap hgap'
  · exact .nil
  · cases hlooks
  · cases hlooks
  · simp only [List.map_cons, List.cons.injEq] at hlooks
    rw [List.forall_mem_cons] at hgap hgap'
    exact .cons (Token.like_of_look hlooks.1) (forall₂_alike hlooks.2 htouching hgap.2 hgap'.2)

/-- A text and its reformatting are read alike. -/
theorem parse_reformatted {text text' : String} (h : Reformatted text text') (hc : CommentFree text)
    (hc' : CommentFree text') : outline SyntaxError.cause (parse text) = outline SyntaxError.cause (parse text') := by
  have herror (last : Option Token) (r : Except Fault (List Decl)) :
      outline SyntaxError.cause (r.mapError (Fault.toError last)) = outline Fault.cause r := by
    cases r with
    | ok ds => rfl
    | error f =>
      rcases f with ⟨cause, whereabouts⟩
      cases whereabouts <;> rfl
  rw [parse, parse, h.complete, h.complete']
  dsimp only
  rw [herror, herror, topLevel_alike (h.alike hc hc')]

end TestHooks.Swift

namespace TestHooks

open TestHooks.Swift

/-! ### What is made of a text -/

theorem membersOfDecl_unplaced (d : Decl) :
    (membersOfDecl d.unplaced).map Member.unplaced = (membersOfDecl d).map Member.unplaced := by
  cases d with
  | variableList head keyword bs =>
    have hwrapper : propertyWrapper? head.unplaced = propertyWrapper? head := by
      rw [propertyWrapper?, propertyWrapper?, Head.unplaced, List.map_map]
      rfl
    have hmember (b : Binding) (type : Option String) :
        (memberOfBinding head.unplaced keyword b type).unplaced = (memberOfBinding head keyword b type).unplaced := by
      simp only [memberOfBinding, hwrapper]
      split
      · rfl
      · split <;> rfl
    simp only [Decl.unplaced, membersOfDecl, membersOfBindings, List.map_zipWith, hmember]
  | function head signature =>
    simp only [Decl.unplaced, membersOfDecl, memberOfSignature]
    split <;> rfl
  | group head header members => rw [Decl.unplaced]; rfl
  | conditional position clauses => rw [Decl.unplaced]; rfl
  | other head keyword name => rw [Decl.unplaced]; rfl

theorem ofType_unplaced (head : Head) (header : TypeHeader) (members : List Decl) (name : Option String) :
    (Declaration.ofType head.unplaced header (unplacedMembers members) name).unplaced =
      (Declaration.ofType head header members name).unplaced := by
  have hmembers : ((unplacedMembers members).flatMap membersOfDecl).map Member.unplaced =
      (members.flatMap membersOfDecl).map Member.unplaced := by
    induction members with
    | nil => rfl
    | cons d ds ih =>
      rw [unplacedMembers, List.flatMap_cons, List.flatMap_cons, List.map_append, List.map_append,
        membersOfDecl_unplaced, ih]
  simp only [Declaration.ofType, Declaration.unplaced, hmembers]

namespace Expansion

def AnnotatedType.unplaced (a : AnnotatedType) : AnnotatedType :=
  ⟨a.head.unplaced, a.header, unplacedMembers a.members, a.name, a.mark.unplaced⟩

mutual

theorem annotatedIn_unplaced (registered : String → Bool) (outer : Option String) (d : Decl) :
    annotatedIn registered outer d.unplaced = (annotatedIn registered outer d).map AnnotatedType.unplaced := by
  cases d with
  | group head header members =>
    have hmarks : head.unplaced.attributes.filter (fun a => registered a.name) =
        (head.attributes.filter fun a => registered a.name).map Attribute.unplaced := by
      rw [Head.unplaced, List.filter_map]
      rfl
    simp only [Decl.unplaced, annotatedIn, List.map_append, annotatedAmong_unplaced registered _ members,
      annotationsOf, hmarks, List.map_map]
    rfl
  | variableList | function | conditional | other => simp [Decl.unplaced, annotatedIn]

theorem annotatedAmong_unplaced (registered : String → Bool) (outer : Option String) (ds : List Decl) :
    annotatedAmong registered outer (unplacedMembers ds) =
      (annotatedAmong registered outer ds).map AnnotatedType.unplaced := by
  cases ds with
  | nil => rfl
  | cons d ds =>
    rw [unplacedMembers, annotatedAmong, annotatedAmong, List.map_append, annotatedIn_unplaced registered outer d,
      annotatedAmong_unplaced registered outer ds]

end

/-- The record of an annotated type without positions depends on the type without places. -/
theorem record_unplaced (settings : Settings) (a : AnnotatedType) :
    (runGenerator settings testable a.marker a.declaration).unplaced =
      (runGenerator settings testable a.unplaced.marker a.unplaced.declaration).unplaced := by
  rw [← runGenerator_unplaced, ← runGenerator_unplaced]
  have hd : a.unplaced.declaration.unplaced = a.declaration.unplaced := ofType_unplaced _ _ _ _
  rw [hd]
  rfl

theorem records_reformatted (settings : Settings) {text text' : String}
    (h : outline SyntaxError.cause (Swift.parse text) = outline SyntaxError.cause (Swift.parse text')) :
    (expandFile .standard settings text).records.map Record.unplaced =
      (expandFile .standard settings text').records.map Record.unplaced := by
  have hfound : (foundIn .standard text).map AnnotatedType.unplaced =
      (foundIn .standard text').map AnnotatedType.unplaced := by
    unfold foundIn
    revert h
    cases Swift.parse text <;> cases Swift.parse text' <;> intro h
    · rfl
    · cases h
    · cases h
    · have h := Except.ok.inj h
      dsimp only
      rw [← annotatedAmong_unplaced, ← annotatedAmong_unplaced, h]
  have hrecords (text : String) : (expandFile .standard settings text).records.map Record.unplaced =
      ((foundIn .standard text).map AnnotatedType.unplaced).map fun a =>
        (runGenerator settings testable a.marker a.declaration).unplaced := by
    rw [records_standard, List.map_map, List.map_map]
    exact List.map_congr_left fun a _ => record_unplaced settings a
  rw [hrecords, hrecords, hfound]

theorem diagnostics_reformatted (settings : Settings) {text text' : String}
    (h : outline SyntaxError.cause (Swift.parse text) = outline SyntaxError.cause (Swift.parse text')) :
    (expandFile .standard settings text).diagnostics.map Diagnostic.unplaced =
      (expandFile .standard settings text').diagnostics.map Diagnostic.unplaced := by
  have hrecords := records_reformatted settings h
  cases hparse : Swift.parse text <;> cases hparse' : Swift.parse text' <;> rw [hparse, hparse'] at h
  · have hcause := Except.error.inj h
    rw [expandFile_of_error _ _ hparse, expandFile_of_error _ _ hparse', hcause]
    rfl
  · cases h
  · cases h
  · rw [diagnostics_expandFile _ _ hparse, diagnostics_expandFile _ _ hparse', List.map_flatMap, List.map_flatMap]
    have hflat (rs : List Record) : (rs.flatMap fun r => r.diagnostics.map Diagnostic.unplaced) =
        (rs.map Record.unplaced).flatMap Record.diagnostics := by
      rw [List.flatMap_map]
      rfl
    rw [hflat, hflat, hrecords]

/-- Two texts without comments that differ in blanks only, where these neither part tokens that touch nor join tokens
that do not, and neither add nor take away a line break between two tokens, are read as the same declarations but for
positions, or fail for the same reason; and whatever the settings, expanding them gives the same extensions, the same
successes and the same diagnostics but for positions. -/
theorem reformatting_invisible (settings : Settings) {text text' : String} (hc : CommentFree text)
    (hc' : CommentFree text') (h : Reformatted text text') :
    outline SyntaxError.cause (Swift.parse text) = outline SyntaxError.cause (Swift.parse text') ∧
      (expandFile .standard settings text).records.map Record.unplaced =
        (expandFile .standard settings text').records.map Record.unplaced ∧
      (expandFile .standard settings text).diagnostics.map Diagnostic.unplaced =
        (expandFile .standard settings text').diagnostics.map Diagnostic.unplaced ∧
      (expandFile .standard settings text).success = (expandFile .standard settings text').success := by
  have hparse := parse_reformatted h hc hc'
  have hdiagnostics := diagnostics_reformatted settings hparse
  refine ⟨hparse, records_reformatted settings hparse, hdiagnostics, ?_⟩
  have hsuccess (e : FileExpansion) :
      e.success = ((e.diagnostics.map Diagnostic.unplaced).filter (·.isError)).isEmpty := by
    rw [List.filter_map, List.isEmpty_map]
    rfl
  rw [hsuccess, hsuccess, hdiagnostics]

/-- A type whose attribute is indented, with blank lines and with more blanks than it takes. -/
def looseText : String :=
  "\n  @Testable\n\t class  A :  B \x7b\n\n   private(set)  var x:Int =  a.b [1]  \x7d\n"

/-- The same type without needless blanks. -/
def tightText : String :=
  "\n@Testable\nclass A : B \x7b\nprivate(set) var x:Int = a.b [1] \x7d"

/-- The hooks of both come out the same, though the attribute stands elsewhere. -/
theorem looseText_tightened :
    looseText ≠ tightText ∧ CommentFree looseText ∧ CommentFree tightText ∧ Reformatted looseText tightText ∧
      (∃ ds, outline SyntaxError.cause (Swift.parse looseText) = .ok ds ∧ ds.length = 1 ∧
        outline SyntaxError.cause (Swift.parse tightText) = .ok ds) ∧
      (expandFile .standard {} looseText).records.length = 1 ∧
      (expandFile .standard {} looseText).records.map Record.unplaced =
        (expandFile .standard {} tightText).records.map Record.unplaced := by
  have hloose : CommentFree looseText := by
    unfold CommentFree
    decide +kernel
  have htight : CommentFree tightText := by
    unfold CommentFree
    decide +kernel
  have hformat : Reformatted looseText tightText :=
    ⟨by decide +kernel, by decide +kernel, by decide +kernel, by decide +kernel⟩
  have hlength : (outline SyntaxError.cause (Swift.parse looseText)).toOption.any (·.length == 1) = true := by
    decide +kernel
  obtain ⟨ds, hds, hone⟩ := Swift.exists_ok hlength
  obtain ⟨hparse, hrecords, -, -⟩ := reformatting_invisible {} hloose htight hformat
  exact ⟨by decide, hloose, htight, hformat, ⟨ds, hds, beq_iff_eq.1 hone, hparse ▸ hds⟩, by decide +kernel, hrecords⟩

end Expansion

end TestHooks
