import Mathlib.Data.List.Basic
import TestHooks.Classification

/-!
# The partition of members

Every member has one place. Its kind and its modifiers choose a bucket, or it is left out. Classification puts into
each place exactly the members that belong there, in the order of declaration.
-/

namespace TestHooks

/-- Where forwarded members go. -/
inductive Bucket
  | instanceProperties
  | instanceFunctions
  | staticProperties
  | staticFunctions
  deriving DecidableEq, Repr

namespace Member

def isProperty : Member → Bool
  | property _ => true
  | _ => false

def isFunction : Member → Bool
  | function _ => true
  | _ => false

/-- True for the kinds of members that can be forwarded. -/
def isForwardable : Member → Bool
  | property _ => true
  | function _ => true
  | unsupported _ => false
  | unknown _ => false

end Member

namespace Tests

variable (tests : Tests)

/-- The bucket of a member. A member without one is left out. -/
def bucket? (m : Member) : Option Bucket :=
  if tests.qualifies m.modifiers then
    match m with
    | .property p => some (if tests.isStatic p.modifiers then .staticProperties else .instanceProperties)
    | .function f => some (if tests.isStatic f.modifiers then .staticFunctions else .instanceFunctions)
    | .unsupported _ => none
    | .unknown _ => none
  else none

/-- Why a member is left out. -/
def reason : Member → String
  | .unsupported u => u.reason
  | m => if tests.qualifies m.modifiers then Classification.unknownKind else Classification.notPrivate

/-- The entry of a member that is left out. -/
def entry (m : Member) : Skipped :=
  ⟨m, tests.reason m, tests.qualifies m.modifiers && !m.isForwardable⟩

/-- The positions in a list of the members that go into a bucket, or of those that are left out. -/
def positions (place : Option Bucket) (ms : List Member) : List Nat :=
  (ms.zipIdx.filter fun x => tests.bucket? x.1 == place).map Prod.snd

theorem bucket?_beq (m : Member) :
    ((tests.bucket? m == some .instanceProperties) =
        (tests.qualifies m.modifiers && m.isProperty && !tests.isStatic m.modifiers)) ∧
      ((tests.bucket? m == some .instanceFunctions) =
        (tests.qualifies m.modifiers && m.isFunction && !tests.isStatic m.modifiers)) ∧
      ((tests.bucket? m == some .staticProperties) =
        (tests.qualifies m.modifiers && m.isProperty && tests.isStatic m.modifiers)) ∧
      ((tests.bucket? m == some .staticFunctions) =
        (tests.qualifies m.modifiers && m.isFunction && tests.isStatic m.modifiers)) ∧
      ((tests.bucket? m == none) = !(tests.qualifies m.modifiers && m.isForwardable)) := by
  cases hq : tests.qualifies m.modifiers with
  | false => simp [bucket?, hq]
  | true =>
    cases hs : tests.isStatic m.modifiers <;> cases m <;> rw [bucket?, if_pos hq] <;>
      simp_all [Member.modifiers, Member.isProperty, Member.isFunction, Member.isForwardable]

theorem mem_positions {place : Option Bucket} {ms : List Member} {i : Nat} :
    i ∈ tests.positions place ms ↔ ∃ m, ms[i]? = some m ∧ tests.bucket? m = place := by
  simp only [positions, List.mem_map, List.mem_filter, beq_iff_eq, Prod.exists, exists_eq_right,
    List.mk_mem_zipIdx_iff_getElem?]

theorem positions_increase (place : Option Bucket) (ms : List Member) :
    (tests.positions place ms).Pairwise (· < ·) := by
  have hall : (ms.zipIdx.map Prod.snd).Pairwise (· < ·) := by
    rw [List.zipIdx_map_snd]
    exact List.pairwise_lt_range'
  exact hall.sublist (List.filter_sublist.map Prod.snd)

theorem filterMap_positions (place : Option Bucket) (ms : List Member) :
    (tests.positions place ms).filterMap (ms[·]?) = ms.filter fun m => tests.bucket? m == place := by
  have hread : ∀ x ∈ ms.zipIdx.filter fun x => tests.bucket? x.1 == place, ms[x.2]? = some x.1 := fun x hx =>
    List.mk_mem_zipIdx_iff_getElem?.1 (List.mem_of_mem_filter hx)
  rw [positions, List.filterMap_map]
  calc
    _ = (ms.zipIdx.filter fun x => tests.bucket? x.1 == place).filterMap (some ∘ Prod.fst) :=
      List.filterMap_congr hread
    _ = (ms.zipIdx.map Prod.fst).filter fun m => tests.bucket? m == place := by
      rw [List.filterMap_eq_map, List.filter_map]
      rfl
    _ = ms.filter fun m => tests.bucket? m == place := by
      rw [List.zipIdx_map_fst]

/-- Every position of a list has one place. -/
theorem place_unique (ms : List Member) (i : Nat) : i < ms.length ↔ ∃! place, i ∈ tests.positions place ms := by
  constructor
  · intro hi
    refine ⟨tests.bucket? ms[i], (tests.mem_positions).2 ⟨ms[i], List.getElem?_eq_getElem hi, rfl⟩, ?_⟩
    intro place hplace
    obtain ⟨m, hm, rfl⟩ := (tests.mem_positions).1 hplace
    rw [List.getElem?_eq_getElem hi, Option.some.injEq] at hm
    rw [hm]
  · rintro ⟨place, hplace, -⟩
    obtain ⟨m, hm, -⟩ := (tests.mem_positions).1 hplace
    exact (List.getElem?_eq_some_iff.1 hm).1

end Tests

namespace Matcher

variable (matcher : Matcher)

/-- The bucket of a member. A member without one is left out. -/
def bucket? (m : Member) : Option Bucket := matcher.tests.bucket? m

/-- Why a member is left out. -/
def reason (m : Member) : String := matcher.tests.reason m

/-- The entry of a member that is left out. -/
def entry (m : Member) : Skipped := matcher.tests.entry m

/-- The members of a bucket, in the order of declaration. -/
def inBucket (b : Bucket) (ms : List Member) : List Member :=
  ms.filter fun m => matcher.bucket? m == some b

/-- The members that are left out, in the order of declaration. -/
def leftOut (ms : List Member) : List Member :=
  ms.filter fun m => matcher.bucket? m == none

/-- The forwarded members, bucket by bucket. -/
def forwarded (ms : List Member) : List Member :=
  matcher.inBucket .instanceProperties ms ++ matcher.inBucket .instanceFunctions ms ++
    matcher.inBucket .staticProperties ms ++ matcher.inBucket .staticFunctions ms

theorem count_inBucket (b : Bucket) (ms : List Member) (m : Member) :
    (matcher.inBucket b ms).count m = if matcher.bucket? m = some b then ms.count m else 0 := by
  by_cases h : matcher.bucket? m = some b
  · rw [if_pos h]
    exact List.count_filter (by simpa using h)
  · rw [if_neg h, List.count_eq_zero]
    simp [inBucket, h]

theorem count_leftOut (ms : List Member) (m : Member) :
    (matcher.leftOut ms).count m = if matcher.bucket? m = none then ms.count m else 0 := by
  by_cases h : matcher.bucket? m = none
  · rw [if_pos h]
    exact List.count_filter (by simpa using h)
  · rw [if_neg h, List.count_eq_zero]
    simp [leftOut, h]

/-- Every member is in one bucket or left out, as often as it is declared. -/
theorem forwarded_append_leftOut_perm (ms : List Member) :
    (matcher.forwarded ms ++ matcher.leftOut ms).Perm ms := by
  rw [List.perm_iff_count]
  intro m
  simp only [forwarded, List.count_append, count_inBucket, count_leftOut]
  cases h : matcher.bucket? m with
  | none => simp
  | some b => cases b <;> simp

end Matcher

namespace Classification

/-- The members of a bucket. -/
def bucket (c : Classification) : Bucket → List Member
  | .instanceProperties => c.instanceProperties.map .property
  | .instanceFunctions => c.instanceFunctions.map .function
  | .staticProperties => c.staticProperties.map .property
  | .staticFunctions => c.staticFunctions.map .function

section

variable (tests : Tests)

/-- One member is put at the end of its bucket, and all other buckets stay. -/
theorem bucket_place (c : Classification) (m : Member) (b : Bucket) :
    (c.place tests m).bucket b = c.bucket b ++ if tests.bucket? m == some b then [m] else [] := by
  cases m with
  | property p =>
    cases hq : tests.qualifies p.modifiers <;> cases hs : tests.isStatic p.modifiers <;> cases b <;>
      simp [place, bucket, addProperty, skip, Tests.bucket?, Member.modifiers, hq, hs]
  | function f =>
    cases hq : tests.qualifies f.modifiers <;> cases hs : tests.isStatic f.modifiers <;> cases b <;>
      simp [place, bucket, addFunction, skip, Tests.bucket?, Member.modifiers, hq, hs]
  | unsupported u => cases b <;> simp [place, bucket, skip, Tests.bucket?]
  | unknown u =>
    cases hq : tests.qualifies u.modifiers <;> cases b <;>
      simp [place, bucket, skip, Tests.bucket?, Member.modifiers, hq]

theorem skipped_place (c : Classification) (m : Member) :
    (c.place tests m).skipped = c.skipped ++ if tests.bucket? m == none then [tests.entry m] else [] := by
  cases m with
  | property p =>
    cases hq : tests.qualifies p.modifiers <;> cases hs : tests.isStatic p.modifiers <;>
      simp [place, addProperty, skip, Tests.bucket?, Tests.entry, Tests.reason, Member.modifiers, hq, hs]
  | function f =>
    cases hq : tests.qualifies f.modifiers <;> cases hs : tests.isStatic f.modifiers <;>
      simp [place, addFunction, skip, Tests.bucket?, Tests.entry, Tests.reason, Member.modifiers, hq, hs]
  | unsupported u =>
    simp [place, skip, Tests.bucket?, Tests.entry, Tests.reason, Member.isForwardable]
  | unknown u =>
    cases hq : tests.qualifies u.modifiers <;>
      simp [place, skip, Tests.bucket?, Tests.entry, Tests.reason, Member.modifiers, Member.isForwardable, hq]

theorem bucket_foldl_place (c : Classification) (ms : List Member) (b : Bucket) :
    (ms.foldl (place tests) c).bucket b = c.bucket b ++ ms.filter fun m => tests.bucket? m == some b := by
  induction ms generalizing c with
  | nil => simp
  | cons m ms ih =>
    rw [List.foldl_cons, ih, bucket_place, List.append_assoc, List.filter_cons]
    split <;> rfl

theorem skipped_foldl_place (c : Classification) (ms : List Member) :
    (ms.foldl (place tests) c).skipped =
      c.skipped ++ (ms.filter fun m => tests.bucket? m == none).map tests.entry := by
  induction ms generalizing c with
  | nil => simp
  | cons m ms ih =>
    rw [List.foldl_cons, ih, skipped_place, List.append_assoc, List.filter_cons]
    split <;> rfl

theorem bucket_scan (ms : List Member) (b : Bucket) :
    (scan tests ms).bucket b = ms.filter fun m => tests.bucket? m == some b := by
  have h := bucket_foldl_place tests empty ms b
  have hempty : empty.bucket b = [] := by cases b <;> rfl
  rwa [hempty, List.nil_append] at h

theorem skipped_scan (ms : List Member) :
    (scan tests ms).skipped = (ms.filter fun m => tests.bucket? m == none).map tests.entry :=
  skipped_foldl_place tests empty ms

/-! ### Scanning is a partition -/

/-- The members of a bucket, or those that are left out. -/
def membersAt (c : Classification) : Option Bucket → List Member
  | some b => c.bucket b
  | none => c.skipped.map Skipped.member

instance : Append Classification where
  append c d :=
    ⟨c.instanceProperties ++ d.instanceProperties, c.instanceFunctions ++ d.instanceFunctions,
      c.staticProperties ++ d.staticProperties, c.staticFunctions ++ d.staticFunctions, c.skipped ++ d.skipped⟩

theorem bucket_append (c d : Classification) (b : Bucket) : (c ++ d).bucket b = c.bucket b ++ d.bucket b := by
  cases b <;> exact List.map_append

/-- The buckets and the entries of the members left out are all of a classification. -/
theorem eq_of_buckets {c d : Classification} (hb : ∀ b, c.bucket b = d.bucket b) (hs : c.skipped = d.skipped) :
    c = d := by
  have hproperties {ps qs : List Property} (h : ps.map Member.property = qs.map Member.property) : ps = qs :=
    List.map_injective_iff.2 (fun _ _ => Member.property.inj) h
  have hfunctions {fs gs : List Function} (h : fs.map Member.function = gs.map Member.function) : fs = gs :=
    List.map_injective_iff.2 (fun _ _ => Member.function.inj) h
  rcases c with ⟨ips, ifs, sps, sfs, skipped⟩
  rcases d with ⟨ips', ifs', sps', sfs', skipped'⟩
  obtain rfl : ips = ips' := hproperties (hb .instanceProperties)
  obtain rfl : ifs = ifs' := hfunctions (hb .instanceFunctions)
  obtain rfl : sps = sps' := hproperties (hb .staticProperties)
  obtain rfl : sfs = sfs' := hfunctions (hb .staticFunctions)
  obtain rfl : skipped = skipped' := hs
  rfl

theorem scan_append (xs ys : List Member) : scan tests (xs ++ ys) = scan tests xs ++ scan tests ys := by
  refine eq_of_buckets (fun b => ?_) ?_
  · rw [bucket_append, bucket_scan, bucket_scan, bucket_scan, List.filter_append]
  · change _ = (scan tests xs).skipped ++ (scan tests ys).skipped
    rw [skipped_scan, skipped_scan, skipped_scan, List.filter_append, List.map_append]

theorem membersAt_scan (ms : List Member) (place : Option Bucket) :
    (scan tests ms).membersAt place = (tests.positions place ms).filterMap (ms[·]?) := by
  rw [Tests.filterMap_positions]
  cases place with
  | some b => exact bucket_scan tests ms b
  | none =>
    rw [membersAt, skipped_scan, List.map_map]
    exact List.map_id' _

/-- Scanning with any tests cuts a list of members into five lists without changing their order. Each bucket has the
properties or the functions that qualify and are static or not, all other members are left out with what the tests
and the member itself say, each position of the list has one place, and lists that are put together are scanned
apart. -/
theorem scan_partitions (ms : List Member) :
    let c := scan tests ms
    (c.instanceProperties.map Member.property = ms.filter fun m =>
        tests.qualifies m.modifiers && m.isProperty && !tests.isStatic m.modifiers) ∧
      (c.instanceFunctions.map Member.function = ms.filter fun m =>
        tests.qualifies m.modifiers && m.isFunction && !tests.isStatic m.modifiers) ∧
      (c.staticProperties.map Member.property = ms.filter fun m =>
        tests.qualifies m.modifiers && m.isProperty && tests.isStatic m.modifiers) ∧
      (c.staticFunctions.map Member.function = ms.filter fun m =>
        tests.qualifies m.modifiers && m.isFunction && tests.isStatic m.modifiers) ∧
      (c.skipped = (ms.filter fun m => !(tests.qualifies m.modifiers && m.isForwardable)).map tests.entry) ∧
      (∀ place, (tests.positions place ms).Pairwise (· < ·) ∧
        c.membersAt place = (tests.positions place ms).filterMap (ms[·]?)) ∧
      (∀ i, i < ms.length ↔ ∃! place, i ∈ tests.positions place ms) ∧
      ∀ others, scan tests (ms ++ others) = c ++ scan tests others := by
  intro c
  have hbucket (b : Bucket) : c.bucket b = _ := bucket_scan tests ms b
  refine ⟨(hbucket .instanceProperties).trans ?_, (hbucket .instanceFunctions).trans ?_,
    (hbucket .staticProperties).trans ?_, (hbucket .staticFunctions).trans ?_, (skipped_scan tests ms).trans ?_,
    fun place => ⟨tests.positions_increase place ms, membersAt_scan tests ms place⟩, tests.place_unique ms,
    scan_append tests ms⟩
  · exact List.filter_congr fun m _ => (tests.bucket?_beq m).1
  · exact List.filter_congr fun m _ => (tests.bucket?_beq m).2.1
  · exact List.filter_congr fun m _ => (tests.bucket?_beq m).2.2.1
  · exact List.filter_congr fun m _ => (tests.bucket?_beq m).2.2.2.1
  · rw [List.filter_congr fun m _ => (tests.bucket?_beq m).2.2.2.2]

end

variable (matcher : Matcher)

theorem bucket_ofMembers (ms : List Member) (b : Bucket) :
    (ofMembers matcher ms).bucket b = matcher.inBucket b ms :=
  bucket_scan matcher.tests ms b

theorem skipped_ofMembers (ms : List Member) :
    (ofMembers matcher ms).skipped = (matcher.leftOut ms).map matcher.entry :=
  skipped_scan matcher.tests ms

theorem forwarded_ofMembers (ms : List Member) : (ofMembers matcher ms).forwarded = matcher.forwarded ms := by
  rw [Matcher.forwarded, ← bucket_ofMembers, ← bucket_ofMembers, ← bucket_ofMembers, ← bucket_ofMembers]
  rfl

end Classification

end TestHooks
