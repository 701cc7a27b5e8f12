import TestHooks.Proofs.Attributes

/-!
# Nodes of a tree

A statement about every declaration of a file, however deep it stands, comes down to how a single one is read
(`nodes_topLevel`).
-/

namespace TestHooks.Swift

open TestHooks.Reader Reader

mutual

/-- The declaration and every declaration in it, conditional blocks included. -/
def nodesOf : Decl → List Decl
  | .group head header members => .group head header members :: nodesAmong members
  | .variableList head keyword bindings => [.variableList head keyword bindings]
  | .function head signature => [.function head signature]
  | .conditional position clauses => .conditional position clauses :: nodesOfClauses clauses
  | .other head keyword name => [.other head keyword name]

def nodesAmong : List Decl → List Decl
  | [] => []
  | d :: ds => nodesOf d ++ nodesAmong ds

def nodesOfClauses : List Clause → List Decl
  | [] => []
  | .mk _ _ members :: cs => nodesAmong members ++ nodesOfClauses cs

end

theorem nodesAmong_append (ds es : List Decl) : nodesAmong (ds ++ es) = nodesAmong ds ++ nodesAmong es := by
  induction ds with
  | nil => rfl
  | cons d ds ih => rw [List.cons_append, nodesAmong, nodesAmong, ih, List.append_assoc]

theorem nodesAmong_singleton (d : Decl) : nodesAmong [d] = nodesOf d := by
  rw [nodesAmong, nodesAmong, List.append_nil]

theorem mem_nodesOf_self (d : Decl) : d ∈ nodesOf d := by
  cases d <;> exact List.mem_cons_self

theorem mem_nodesAmong {d e : Decl} {ds : List Decl} (hd : d ∈ ds) (he : e ∈ nodesOf d) : e ∈ nodesAmong ds := by
  induction ds with
  | nil => cases hd
  | cons c ds ih =>
    rw [nodesAmong, List.mem_append]
    rcases List.mem_cons.1 hd with rfl | hd
    · exact .inl he
    · exact .inr (ih hd)

theorem nodes_of_member {d : Decl} {members : List Decl} (h : d ∈ members) : d ∈ nodesAmong members :=
  mem_nodesAmong h (mem_nodesOf_self d)

theorem mem_nodesOf_member {head : Head} {header : TypeHeader} {members : List Decl} {d : Decl} (hd : d ∈ members) :
    d ∈ nodesOf (.group head header members) := by
  rw [nodesOf]
  exact List.mem_cons_of_mem _ (nodes_of_member hd)

/-- The declaration was read from tokens among `ts`, which begin with one that it takes its position from. Of what a
type or a conditional block holds nothing is said. -/
inductive ReadAmong (ts : List Token) : Decl → Prop
  | conditional {t : Token} {more : List Token} {clauses : List Clause} (hs : t :: more <:+ ts) :
    ReadAmong ts (.conditional t.position clauses)
  | directive {t : Token} {more : List Token} (hs : t :: more <:+ ts) :
    ReadAmong ts (.other ⟨[], [], t.position⟩ t.text "")
  | group {t k : Token} {more rest inside : List Token} {head : Head} {keyword : TypeKeyword} {header : TypeHeader}
    {members : List Decl} (hs : t :: more <:+ ts) (hh : (headFrom t).run (t :: more) = .ok (head, k :: rest))
    (hi : Introducer.ofToken? k = some (.type keyword)) (ht : (typeHeader keyword).run rest = .ok (header, inside)) :
    ReadAmong ts (.group head header members)
  | variableList {t k : Token} {more rest left : List Token} {head : Head} {keyword : VariableKeyword}
    {bindings : List Binding} (hs : t :: more <:+ ts) (hh : (headFrom t).run (t :: more) = .ok (head, k :: rest))
    (hb : (byCommas binding).run rest = .ok (bindings, left)) : ReadAmong ts (.variableList head keyword bindings)
  | function {t k : Token} {more rest left : List Token} {head : Head} {signature : Signature} (hs : t :: more <:+ ts)
    (hh : (headFrom t).run (t :: more) = .ok (head, k :: rest)) (hf : function.run rest = .ok (signature, left)) :
    ReadAmong ts (.function head signature)
  | other {t k : Token} {more rest left : List Token} {head : Head} {keyword name : String} (hs : t :: more <:+ ts)
    (hh : (headFrom t).run (t :: more) = .ok (head, k :: rest))
    (hn : (otherName keyword).run rest = .ok (name, left)) : ReadAmong ts (.other head keyword name)

theorem ReadAmong.of_suffix {ts us : List Token} {d : Decl} (h : ReadAmong ts d) (hs : ts <:+ us) : ReadAmong us d := by
  cases h with
  | conditional h => exact .conditional (h.trans hs)
  | directive h => exact .directive (h.trans hs)
  | group h hh hi ht => exact .group (h.trans hs) hh hi ht
  | variableList h hh hb => exact .variableList (h.trans hs) hh hb
  | function h hh hf => exact .function (h.trans hs) hh hf
  | other h hh hn => exact .other (h.trans hs) hh hn

/-- Each of the declarations was read from tokens among `ts`. -/
def AllRead (ts : List Token) (ds : List Decl) : Prop := ∀ d ∈ ds, ReadAmong ts d

theorem AllRead.of_suffix {ts us : List Token} {ds : List Decl} (h : AllRead ts ds) (hs : ts <:+ us) : AllRead us ds :=
  fun d hd => (h d hd).of_suffix hs

theorem allRead_append {ts : List Token} {ds es : List Decl} (h : AllRead ts ds) (h' : AllRead ts es) :
    AllRead ts (ds ++ es) :=
  fun d hd => (List.mem_append.1 hd).elim (h d) (h' d)

theorem allRead_flat {strict : Bool} {t k : Token} {ts rest left : List Token} {head : Head} {found : Option Decl}
    (hh : (headFrom t).run (t :: ts) = .ok (head, k :: rest))
    (hf : (flatDeclaration strict head k (Introducer.ofToken? k)).run rest = .ok (found, left)) :
    AllRead (t :: ts) (nodesAmong found.toList) := by
  have single {d : Decl} (hn : nodesOf d = [d]) (hd : ReadAmong (t :: ts) d) :
      AllRead (t :: ts) (nodesAmong (some d).toList) := by
    rw [Option.toList_some, nodesAmong_singleton, hn]
    exact List.forall_mem_singleton.2 hd
  rcases flatDeclaration_cases hf with ⟨keyword, bs, -, hb, rfl⟩ | ⟨s, -, hs, rfl⟩ | ⟨keyword, name, -, hn, rfl⟩ |
    ⟨-, -, -, -, rfl, -⟩
  · exact single rfl (.variableList (List.suffix_refl _) hh hb)
  · exact single rfl (.function (List.suffix_refl _) hh hs)
  · exact single rfl (.other (List.suffix_refl _) hh hn)
  · exact List.forall_mem_nil _

def readInvariant : ReadingInvariant where
  declared _ t ts found _ := AllRead (t :: ts) (nodesAmong found.toList)
  listed ts found _ := AllRead ts (nodesAmong found)
  divided _ _ _ _ ts found _ := AllRead ts (nodesOfClauses found)
  enclosed _ _ ts found _ _ := AllRead ts (nodesAmong found)
  conditional _ _ _ h := by
    rw [Option.toList_some, nodesAmong_singleton, nodesOf]
    exact List.forall_mem_cons.2 ⟨.conditional (List.suffix_refl _), h.of_suffix (List.suffix_cons _ _)⟩
  directive _ _ _ := by
    rw [Option.toList_some, nodesAmong_singleton, nodesOf]
    exact List.forall_mem_singleton.2 (.directive (List.suffix_refl _))
  group {_ t ts _ k rest keyword _ inside _ _} _ hh hi ht _ hm := by
    have hs : inside <:+ t :: ts :=
      ((typeHeader keyword).suffix ht).trans ((List.suffix_cons k rest).trans ((headFrom t).suffix hh))
    rw [Option.toList_some, nodesAmong_singleton, nodesOf]
    exact List.forall_mem_cons.2 ⟨.group (List.suffix_refl _) hh hi ht, hm.of_suffix hs⟩
  flat _ hh _ hf := allRead_flat hh hf
  close _ := List.forall_mem_nil _
  semicolon _ h := h.of_suffix (List.suffix_cons _ _)
  member {t rest _ _ _ _} _ _ hrun hd _ hm := by
    rw [nodesAmong_append]
    exact allRead_append hd (hm.of_suffix ((declarationRun_suffix hrun).trans (List.suffix_cons t rest)))
  finish {_ _ mark keyword _ _ _ _ _ _} hc _ hm := by
    rw [nodesOfClauses, nodesOfClauses, List.append_nil]
    exact hm.of_suffix ((clauseCondition keyword mark).suffix hc)
  next {_ _ mark keyword _ _ _ _ _ _ _ _ _} hc hrun hm _ ho := by
    have hs := (clauseCondition keyword mark).suffix hc
    rw [nodesOfClauses]
    exact allRead_append (hm.of_suffix hs) (ho.of_suffix ((clauseMembersRun_suffix hrun).1.trans hs))
  mark _ := List.forall_mem_nil _
  separator _ _ h := h.of_suffix (List.suffix_cons _ _)
  enclosedMember {_ _ t rest _ _ _ _ _} _ _ _ hrun hd _ ho := by
    rw [nodesAmong_append]
    exact allRead_append hd (ho.of_suffix ((declarationRun_suffix hrun).trans (List.suffix_cons t rest)))

theorem nodes_topLevel {ts : List Token} {found : List Decl} (h : topLevel ts = .ok found) :
    AllRead ts (nodesAmong found) := by
  rcases topLevel_cases h with ⟨rfl, rfl⟩ | ⟨t, rest, hts, ⟨hk, hr⟩ | ⟨hs, hb, first, after, others, hd, ho, rfl⟩⟩
  · exact List.forall_mem_nil _
  · rw [hts]
    exact (nodes_topLevel hr).of_suffix (List.suffix_cons _ _)
  · rw [hts, nodesAmong_append]
    have hs := (declarationRun_suffix hd).trans (List.suffix_cons t rest)
    exact allRead_append (readInvariant.declared_of_run hd) ((nodes_topLevel ho).of_suffix hs)
termination_by ts.length
decreasing_by
  · rw [hts, List.length_cons]
    omega
  · have := (declarationRun_suffix hd).length_le
    rw [hts, List.length_cons]
    omega

/-- Every declaration in the tree of a file was read from its tokens. -/
theorem nodes_parse {text : String} {ds : List Decl} (h : parse text = .ok ds) :
    AllRead (Tokens.ofText text).tokens (nodesAmong ds) :=
  nodes_topLevel (parse_cases h).2

end TestHooks.Swift
