import Mathlib.Data.List.Nodup
import TestHooks.Value.Display
import TestHooks.Value.Json

/-!
# JSON text of values

Values without numbers are written as JSON: strings with their quotes, backslashes and control characters escaped,
lists and tables without blanks. What is written is read as the same value (`read?_write`).
-/

namespace TestHooks

/-! ### Tables with different keys -/

namespace Value

theorem insert_of_not_mem {key : String} {value : Value} {entries : List (String × Value)}
    (h : key ∉ entries.map Prod.fst) : insert key value entries = entries ++ [(key, value)] := by
  induction entries with
  | nil => rfl
  | cons e rest ih =>
    obtain ⟨k, v⟩ := e
    simp only [List.map_cons, List.mem_cons, not_or] at h
    rw [insert, if_neg (by simpa using Ne.symm h.1), ih h.2, List.cons_append]

theorem insertAll_of_nodup {known added : List (String × Value)} (h : ((known ++ added).map Prod.fst).Nodup) :
    insertAll known added = known ++ added := by
  induction added generalizing known with
  | nil => rw [List.append_nil]; rfl
  | cons e rest ih =>
    have hstep : insertAll known (e :: rest) = insertAll (insert e.1 e.2 known) rest := rfl
    have hfresh : e.1 ∉ known.map Prod.fst := by
      rw [List.map_append, List.nodup_append] at h
      intro hmem
      exact h.2.2 _ hmem _ (by simp) rfl
    have hsame : known ++ [(e.1, e.2)] ++ rest = known ++ e :: rest := by simp
    rw [hstep, insert_of_not_mem hfresh, ih (by rwa [hsame]), hsame]

end Value

namespace Json

open TestHooks.Value

/-! ### Strings -/

def escapeChar (c : Char) : List Char :=
  if c = '"' || c = '\\' then ['\\', c]
  else if c.toNat < 0x20 then '\\' :: 'u' :: hexDigits 4 c.toNat
  else [c]

def escaped (cs : List Char) : List Char := cs.flatMap escapeChar

theorem hexValue?_hexDigits : ∀ n < 0x20, hexValue? (hexDigits 4 n) = some n := by decide

theorem escape?_control {c : Char} (h : c.toNat < 0x20) (rest : List Char) :
    escape? ('u' :: hexDigits 4 c.toNat ++ rest) = some (c, 5) := by
  have htake : (hexDigits 4 c.toNat ++ rest).take 4 = hexDigits 4 c.toNat :=
    List.take_left' (length_hexDigits 4 _)
  have hlow : ¬(0xd800 ≤ c.toNat ∧ c.toNat < 0xdc00) := by omega
  have hhigh : ¬(0xdc00 ≤ c.toNat ∧ c.toNat < 0xe000) := by omega
  rw [List.cons_append, escape?, htake, hexValue?_hexDigits _ h]
  simp only [Bool.and_eq_true, decide_eq_true_eq, if_neg hlow, if_neg hhigh, Char.ofNat_toNat]

theorem stringTail_escapeChar (read : Nat) (c : Char) (rest : List Char) :
    stringTail read (escapeChar c ++ rest) =
      (stringTail (read + (escapeChar c).length) rest).map fun p => (c :: p.1, p.2) := by
  unfold escapeChar
  split
  · next h =>
    simp only [Bool.or_eq_true, decide_eq_true_eq] at h
    rcases h with rfl | rfl
    · rw [List.cons_append, stringTail]
      rfl
    · rw [List.cons_append, stringTail]
      rfl
  · next h =>
    simp only [Bool.or_eq_true, decide_eq_true_eq, not_or] at h
    split
    · next hc =>
      have hd : (('u' :: hexDigits 4 c.toNat) ++ rest).drop 5 = rest :=
        List.drop_left' (by rw [List.length_cons, length_hexDigits])
      rw [List.cons_append, stringTail, escape?_control hc]
      simp only [hd, List.length_cons, length_hexDigits]
    · next hc =>
      rw [List.singleton_append, stringTail, if_neg hc]
      · rfl
      · exact fun he => h.1 he
      · exact fun he => h.2 he

theorem stringTail_escaped (read : Nat) (cs rest : List Char) :
    stringTail read (escaped cs ++ '"' :: rest) = some (cs, read + (escaped cs).length + 1) := by
  induction cs generalizing read with
  | nil =>
    rw [escaped, List.flatMap_nil, List.nil_append, stringTail]
    rfl
  | cons c cs ih =>
    have hcons : escaped (c :: cs) = escapeChar c ++ escaped cs := List.flatMap_cons
    rw [hcons, List.append_assoc, stringTail_escapeChar, ih, List.length_append, Option.map_some]
    simp [Nat.add_assoc]

/-! ### Tokens -/

/-- A scalar as written. Numbers and times are not written. -/
def scalarText : Value → List Char
  | .null => "null".toList
  | .bool true => "true".toList
  | .bool false => "false".toList
  | .string s => '"' :: escaped s.toList ++ ['"']
  | _ => []

def Token.text : Token → List Char
  | openList => ['[']
  | closeList => [']']
  | openTable => ['\x7b']
  | closeTable => ['\x7d']
  | comma => [',']
  | colon => [':']
  | scalar v => scalarText v

/-- True for what has a text. -/
def Token.isWritten (t : Token) : Bool := !t.text.isEmpty

theorem tokens?_scalar {v : Value} (h : (Token.scalar v).isWritten = true) (rest : List Char) :
    tokens? (scalarText v ++ rest) = (tokens? rest).map (.scalar v :: ·) := by
  cases v with
  | null => rw [scalarText, tokens?.eq_def]; rfl
  | bool b => cases b <;> rw [scalarText, tokens?.eq_def] <;> rfl
  | string s =>
    have hlex : tokenAt '"' (escaped s.toList ++ '"' :: rest) =
        some (.scalar (.string s), (escaped s.toList).length + 1) := by
      rw [tokenAt, mark?]
      simp [stringTail_escaped]
    have hdrop : (escaped s.toList ++ '"' :: rest).drop ((escaped s.toList).length + 1) = rest := by
      rw [← List.singleton_append, ← List.append_assoc]
      exact List.drop_left' (by simp)
    rw [scalarText, List.append_assoc, List.cons_append, List.singleton_append, tokens?.eq_def]
    simp only [show isBlank '"' = false from rfl, hlex, hdrop, Bool.false_eq_true, if_false]
  | int n => cases h
  | float x => cases h
  | time => cases h
  | list items => cases h
  | table entries => cases h

theorem tokens?_text {t : Token} (h : t.isWritten = true) (rest : List Char) :
    tokens? (t.text ++ rest) = (tokens? rest).map (t :: ·) := by
  cases t with
  | scalar v => exact tokens?_scalar h rest
  | _ => rw [Token.text, List.singleton_append, tokens?.eq_def]; rfl

theorem tokens?_flatMap {ts : List Token} (h : ∀ t ∈ ts, t.isWritten = true) :
    tokens? (ts.flatMap Token.text) = some ts := by
  induction ts with
  | nil => rw [List.flatMap_nil, tokens?]
  | cons t ts ih =>
    rw [List.flatMap_cons, tokens?_text (h t List.mem_cons_self), ih fun u hu => h u (List.mem_cons_of_mem _ hu),
      Option.map_some]

/-! ### Values -/

mutual

/-- The tokens of a value. -/
def tokensOf : Value → List Token
  | .list items => .openList :: itemTokens items ++ [.closeList]
  | .table entries => .openTable :: entryTokens entries ++ [.closeTable]
  | v => [.scalar v]

def itemTokens : List Value → List Token
  | [] => []
  | [v] => tokensOf v
  | v :: vs => tokensOf v ++ .comma :: itemTokens vs

def entryTokens : List (String × Value) → List Token
  | [] => []
  | [(key, v)] => .scalar (.string key) :: .colon :: tokensOf v
  | (key, v) :: es => .scalar (.string key) :: .colon :: tokensOf v ++ .comma :: entryTokens es

end

mutual

/-- True for a value without numbers and times whose tables have different keys and in which at most `room` filled
lists and tables are inside one another. -/
def isWritable : Nat → Value → Bool
  | room, .list items => items.isEmpty || (0 < room && areWritable (room - 1) items)
  | room, .table entries =>
    entries.isEmpty || (0 < room && decide (entries.map Prod.fst).Nodup && haveWritable (room - 1) entries)
  | _, v => (Token.scalar v).isWritten

def areWritable (room : Nat) : List Value → Bool
  | [] => true
  | v :: vs => isWritable room v && areWritable room vs

def haveWritable (room : Nat) : List (String × Value) → Bool
  | [] => true
  | (_, v) :: es => isWritable room v && haveWritable room es

end

def write (v : Value) : String :=
  String.ofList ((tokensOf v).flatMap Token.text)

theorem map_val_eq_some {α : Type} {P : α → Prop} {r : Option {x : α // P x}} {x : α} :
    r.map Subtype.val = some x ↔ ∃ h, r = some ⟨x, h⟩ := by
  cases r with
  | none => simp
  | some y =>
    rcases y with ⟨y, hy⟩
    constructor
    · intro h
      cases h
      exact ⟨hy, rfl⟩
    · rintro ⟨h, he⟩
      cases he
      rfl

theorem head_tokensOf (v : Value) (rest : List Token) :
    ∃ t ts, tokensOf v ++ rest = t :: ts ∧ t ≠ .closeList := by
  cases v <;> exact ⟨_, _, rfl, by simp⟩

theorem itemTokens_cons (v : Value) (vs : List Value) :
    itemTokens (v :: vs) = tokensOf v ++ if vs = [] then [] else .comma :: itemTokens vs := by
  cases vs <;> simp [itemTokens]

theorem entryTokens_cons (e : String × Value) (es : List (String × Value)) :
    entryTokens (e :: es) =
      .scalar (.string e.1) :: .colon :: (tokensOf e.2 ++ if es = [] then [] else .comma :: entryTokens es) := by
  cases es <;> simp [entryTokens]

theorem value_scalar {room : Nat} {v : Value} (h : tokensOf v = [.scalar v]) (rest : List Token) :
    (value room (tokensOf v ++ rest)).map Subtype.val = some (v, rest) := by
  rw [h, List.singleton_append, value.eq_def]
  rfl

theorem value_list {room : Nat} {ts rest : List Token} {vs : List Value} (hts : ts.head? ≠ some .closeList)
    (h : (items room ts).map Subtype.val = some (vs, rest)) :
    (value (room + 1) (.openList :: ts)).map Subtype.val = some (.list vs, rest) := by
  obtain ⟨hl, h⟩ := map_val_eq_some.1 h
  cases ts with
  | nil =>
    rw [items, value.eq_def] at h
    cases h
  | cons t more =>
    cases t with
    | closeList => exact absurd rfl hts
    | _ =>
      rw [value.eq_def]
      simp only [h, Read.after, Option.map_some]

theorem value_table {room : Nat} {ts rest : List Token} {es : List (String × Value)}
    (hts : ts.head? ≠ some .closeTable) (hes : (es.map Prod.fst).Nodup)
    (h : (entries room ts).map Subtype.val = some (es, rest)) :
    (value (room + 1) (.openTable :: ts)).map Subtype.val = some (.table es, rest) := by
  obtain ⟨hl, h⟩ := map_val_eq_some.1 h
  have hall : insertAll [] es = es := insertAll_of_nodup hes
  cases ts with
  | nil =>
    rw [entries.eq_def] at h
    cases h
  | cons t more =>
    cases t with
    | closeTable => exact absurd rfl hts
    | _ =>
      rw [value.eq_def]
      simp only [h, Read.after, Option.map_some, hall]

theorem items_last {room : Nat} {ts rest : List Token} {v : Value}
    (h : (value room ts).map Subtype.val = some (v, .closeList :: rest)) :
    (items room ts).map Subtype.val = some ([v], rest) := by
  obtain ⟨hl, h⟩ := map_val_eq_some.1 h
  rw [items, h]
  rfl

theorem items_next {room : Nat} {ts more rest : List Token} {v : Value} {vs : List Value}
    (h : (value room ts).map Subtype.val = some (v, .comma :: more))
    (hs : (items room more).map Subtype.val = some (vs, rest)) :
    (items room ts).map Subtype.val = some (v :: vs, rest) := by
  obtain ⟨hl, h⟩ := map_val_eq_some.1 h
  obtain ⟨hls, hs⟩ := map_val_eq_some.1 hs
  rw [items, h]
  simp only [hs, Read.after, Option.map_some]

theorem entries_last {room : Nat} {ts rest : List Token} {key : String} {v : Value}
    (h : (value room ts).map Subtype.val = some (v, .closeTable :: rest)) :
    (entries room (.scalar (.string key) :: .colon :: ts)).map Subtype.val = some ([(key, v)], rest) := by
  obtain ⟨hl, h⟩ := map_val_eq_some.1 h
  rw [entries]
  simp only [h, Option.map_some]

theorem entries_next {room : Nat} {ts more rest : List Token} {key : String} {v : Value}
    {es : List (String × Value)} (h : (value room ts).map Subtype.val = some (v, .comma :: more))
    (hs : (entries room more).map Subtype.val = some (es, rest)) :
    (entries room (.scalar (.string key) :: .colon :: ts)).map Subtype.val = some ((key, v) :: es, rest) := by
  obtain ⟨hl, h⟩ := map_val_eq_some.1 h
  obtain ⟨hls, hs⟩ := map_val_eq_some.1 hs
  rw [entries]
  simp only [h, hs, Read.after, Option.map_some]

/-- The tokens of every value that nests at most `room` deep are read as the value. -/
def ReadsBack (room : Nat) : Prop :=
  ∀ {v : Value}, isWritable room v = true → ∀ rest : List Token,
    (value room (tokensOf v ++ rest)).map Subtype.val = some (v, rest)

theorem items_itemTokens {room : Nat} (hv : ReadsBack room) {v : Value} {vs : List Value}
    (h : areWritable room (v :: vs) = true) (rest : List Token) :
    (items room (itemTokens (v :: vs) ++ .closeList :: rest)).map Subtype.val = some (v :: vs, rest) := by
  induction vs generalizing v with
  | nil =>
    rw [areWritable, Bool.and_eq_true] at h
    exact items_last (hv h.1 _)
  | cons w ws ih =>
    rw [areWritable, Bool.and_eq_true] at h
    rw [itemTokens_cons, List.append_assoc]
    exact items_next (hv h.1 _) (ih h.2)

theorem entries_entryTokens {room : Nat} (hv : ReadsBack room) {e : String × Value} {es : List (String × Value)}
    (h : haveWritable room (e :: es) = true) (rest : List Token) :
    (entries room (entryTokens (e :: es) ++ .closeTable :: rest)).map Subtype.val = some (e :: es, rest) := by
  induction es generalizing e with
  | nil =>
    rw [haveWritable, Bool.and_eq_true] at h
    rw [entryTokens_cons, List.cons_append, List.cons_append, List.append_assoc]
    exact entries_last (hv h.1 _)
  | cons d ds ih =>
    rw [haveWritable, Bool.and_eq_true] at h
    rw [entryTokens_cons, List.cons_append, List.cons_append, List.append_assoc]
    exact entries_next (hv h.1 _) (ih h.2)

/-- What the elements of a filled list or table need, one level further in. -/
theorem isWritable_list {room : Nat} {v : Value} {vs : List Value} (h : isWritable room (.list (v :: vs)) = true) :
    ∃ inner, room = inner + 1 ∧ areWritable inner (v :: vs) = true := by
  cases room with
  | zero => simp [isWritable] at h
  | succ inner => exact ⟨inner, rfl, by simpa [isWritable] using h⟩

theorem isWritable_table {room : Nat} {e : String × Value} {es : List (String × Value)}
    (h : isWritable room (.table (e :: es)) = true) :
    ∃ inner, room = inner + 1 ∧ ((e :: es).map Prod.fst).Nodup ∧ haveWritable inner (e :: es) = true := by
  cases room with
  | zero => simp [isWritable] at h
  | succ inner =>
    simp only [isWritable, List.isEmpty_cons, Bool.false_or, Bool.and_eq_true, decide_eq_true_eq] at h
    exact ⟨inner, rfl, h.1.2, h.2⟩

theorem value_tokensOf (room : Nat) : ReadsBack room := by
  induction room using Nat.strongRecOn with
  | ind room ih =>
    intro v h rest
    match v with
    | .list [] =>
      rw [tokensOf, itemTokens, value.eq_def]
      rfl
    | .table [] =>
      rw [tokensOf, entryTokens, value.eq_def]
      rfl
    | .list (w :: ws) =>
      obtain ⟨inner, rfl, hs⟩ := isWritable_list h
      rw [tokensOf, List.cons_append, List.cons_append, List.append_assoc, List.singleton_append]
      refine value_list ?_ (items_itemTokens (ih inner (Nat.lt_succ_self _)) hs rest)
      rw [itemTokens_cons, List.append_assoc]
      obtain ⟨t, ts, he, hl⟩ := head_tokensOf w _
      rw [he]
      exact fun hc => hl (Option.some.inj hc)
    | .table (e :: es) =>
      obtain ⟨inner, rfl, hn, hs⟩ := isWritable_table h
      rw [tokensOf, List.cons_append, List.cons_append, List.append_assoc, List.singleton_append]
      refine value_table ?_ hn (entries_entryTokens (ih inner (Nat.lt_succ_self _)) hs rest)
      rw [entryTokens_cons]
      simp
    | .null => exact value_scalar rfl rest
    | .bool b => exact value_scalar rfl rest
    | .string s => exact value_scalar rfl rest
    | .int n => exact value_scalar rfl rest
    | .float x => exact value_scalar rfl rest
    | .time => exact value_scalar rfl rest

/-! ### Texts -/

theorem isWritten_itemTokens {room : Nat}
    (hv : ∀ {v : Value}, isWritable room v = true → ∀ t ∈ tokensOf v, t.isWritten = true) {vs : List Value}
    (h : areWritable room vs = true) : ∀ t ∈ itemTokens vs, t.isWritten = true := by
  induction vs with
  | nil => simp [itemTokens]
  | cons v vs ih =>
    rw [areWritable, Bool.and_eq_true] at h
    rw [itemTokens_cons]
    intro t ht
    rcases List.mem_append.1 ht with ht | ht
    · exact hv h.1 t ht
    · split at ht
      · cases ht
      · rcases List.mem_cons.1 ht with rfl | ht
        · rfl
        · exact ih h.2 t ht

theorem isWritten_entryTokens {room : Nat}
    (hv : ∀ {v : Value}, isWritable room v = true → ∀ t ∈ tokensOf v, t.isWritten = true)
    {es : List (String × Value)} (h : haveWritable room es = true) : ∀ t ∈ entryTokens es, t.isWritten = true := by
  induction es with
  | nil => simp [entryTokens]
  | cons e es ih =>
    rw [haveWritable, Bool.and_eq_true] at h
    rw [entryTokens_cons]
    intro t ht
    rcases List.mem_cons.1 ht with rfl | ht
    · rfl
    rcases List.mem_cons.1 ht with rfl | ht
    · rfl
    rcases List.mem_append.1 ht with ht | ht
    · exact hv h.1 t ht
    · split at ht
      · cases ht
      · rcases List.mem_cons.1 ht with rfl | ht
        · rfl
        · exact ih h.2 t ht

theorem isWritten_tokensOf {room : Nat} {v : Value} (h : isWritable room v = true) :
    ∀ t ∈ tokensOf v, t.isWritten = true := by
  induction room using Nat.strongRecOn generalizing v with
  | ind room ih =>
    match v with
    | .list [] => simp [tokensOf, itemTokens, Token.isWritten, Token.text]
    | .table [] => simp [tokensOf, entryTokens, Token.isWritten, Token.text]
    | .list (w :: ws) =>
      obtain ⟨inner, rfl, hs⟩ := isWritable_list h
      simpa [tokensOf, Token.isWritten, Token.text, or_imp, forall_and] using
        isWritten_itemTokens (ih inner (Nat.lt_succ_self _)) hs
    | .table (e :: es) =>
      obtain ⟨inner, rfl, -, hs⟩ := isWritable_table h
      simpa [tokensOf, Token.isWritten, Token.text, or_imp, forall_and] using
        isWritten_entryTokens (ih inner (Nat.lt_succ_self _)) hs
    | .null => simp [tokensOf, Token.isWritten, Token.text, scalarText]
    | .bool b => cases b <;> simp [tokensOf, Token.isWritten, Token.text, scalarText]
    | .string s => simp [tokensOf, Token.isWritten, Token.text, scalarText]
    | .int n => cases h
    | .float x => cases h
    | .time => cases h

/-- What is written is read. -/
theorem read?_write {v : Value} (h : isWritable maxDepth v = true) : read? (write v) = some v := by
  have hr := value_tokensOf maxDepth h []
  rw [List.append_nil] at hr
  obtain ⟨hl, hv⟩ := map_val_eq_some.1 hr
  rw [read?, readWithin?, write, String.toList_ofList, tokens?_flatMap (isWritten_tokensOf h)]
  simp only [hv]

end Json

end TestHooks
