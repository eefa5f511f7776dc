import Mathlib.Data.List.AList
import Mathlib.Tactic.NormNum

/-! # The key-value store

    `dbengine/rocksdb.cpp`. RocksDB itself is a finite map from keys to byte
    strings. A key is the decimal text of an id, so keys are ids here. The value
    of a vertex is its neighbour list, four little-endian bytes for each id.

    The iterator goes through the keys in the order of their texts. Nothing
    depends on that order, and `entries` may list them in any.
-/

namespace Vend

/-- The content of a database. -/
abbrev RocksDb := AList fun _ : Nat => List UInt8

namespace RocksDb

/-! ## Section 1: Model -/

/-- The bytes that `memcpy` copies from a `uint32_t`. -/
def wordBytes (v : Nat) : List UInt8 :=
  [UInt8.ofNat v, UInt8.ofNat (v / 2 ^ 8), UInt8.ofNat (v / 2 ^ 16), UInt8.ofNat (v / 2 ^ 24)]

/-- `ValueToString(value, len, data)`. -/
def valueToString (value : List Nat) : List UInt8 := value.flatMap wordBytes

/-- `StringToValue(data, value)`: the `len / 4` words of the string. -/
def stringToValue : List UInt8 → List Nat
  | a :: b :: c :: d :: data =>
    (a.toNat + b.toNat * 2 ^ 8 + c.toNat * 2 ^ 16 + d.toNat * 2 ^ 24) :: stringToValue data
  | _ => []

/-- `Get(key, value)`: the result and what `value` holds afterwards. A missing key
    leaves it as it was. -/
def get (db : RocksDb) (key : Nat) (value : List Nat) : Bool × List Nat :=
  match db.lookup key with
  | none => (false, value)
  | some data => (true, stringToValue data)

/-- `Put(key, value)`. An empty value is not written. -/
def put (db : RocksDb) (key : Nat) (value : List Nat) : RocksDb :=
  if value = [] then db else db.insert key (valueToString value)

/-- What `InitIter` and `Next` go through. -/
def scan (db : RocksDb) : List (Nat × List Nat) :=
  db.entries.map fun entry => (entry.1, stringToValue entry.2)

/-- The list that a vertex has in the database. -/
def list (db : RocksDb) (key : Nat) : List Nat := (db.get key []).2

/-! ## Section 2: Round trip -/

theorem stringToValue_valueToString {value : List Nat} (h : ∀ v ∈ value, v < 2 ^ 32) :
    stringToValue (valueToString value) = value := by
  induction value with
  | nil => rfl
  | cons v value ih =>
    have hv : v < 2 ^ 32 := h v (by simp)
    have hrest := ih fun w hw => h w (by simp [hw])
    unfold valueToString at hrest ⊢
    rw [List.flatMap_cons]
    simp only [wordBytes, List.cons_append, List.nil_append, stringToValue, hrest,
      List.cons.injEq, and_true]
    simp only [UInt8.toNat_ofNat']
    omega

theorem stringToValue_lt (data : List UInt8) : ∀ v ∈ stringToValue data, v < 2 ^ 32 := by
  fun_induction stringToValue data with
  | case1 a b c d data ih =>
    intro v hv
    rcases List.mem_cons.mp hv with rfl | hv
    · have ha := a.toNat_lt
      have hb := b.toNat_lt
      have hc := c.toNat_lt
      have hd := d.toNat_lt
      omega
    · exact ih v hv
  | case2 => simp

variable (db : RocksDb) {key x : Nat} {value : List Nat}

theorem list_lt : ∀ v ∈ db.list x, v < 2 ^ 32 := by
  unfold list get
  cases db.lookup x with
  | none => simp
  | some data => exact stringToValue_lt data

theorem get_of_lookup_none (h : db.lookup key = none) : (db.get key value).2 = value := by
  simp [get, h]

theorem get_of_lookup_ne_none (h : db.lookup key ≠ none) : (db.get key value).2 = db.list key := by
  unfold list get
  cases hlookup : db.lookup key with
  | none => exact absurd hlookup h
  | some data => rfl

theorem list_of_lookup_none (h : db.lookup key = none) : db.list key = [] :=
  get_of_lookup_none db h

theorem list_put_self (hne : value ≠ []) (hvalue : ∀ v ∈ value, v < 2 ^ 32) :
    (db.put key value).list key = value := by
  simp [put, hne, list, get, stringToValue_valueToString hvalue]

theorem list_put_ne (hx : x ≠ key) : (db.put key value).list x = db.list x := by
  unfold put
  split
  · rfl
  · simp [list, get, AList.lookup_insert_ne hx]

theorem lookup_put_ne (hx : x ≠ key) : (db.put key value).lookup x = db.lookup x := by
  unfold put
  split
  · rfl
  · exact AList.lookup_insert_ne hx

/-- The database with the single edge 1-2. -/
def pairStore : RocksDb := (RocksDb.put ∅ 1 [2]).put 2 [1]

theorem list_pairStore (x : Nat) :
    pairStore.list x = if x = 1 then [2] else if x = 2 then [1] else [] := by
  unfold pairStore
  by_cases h₂ : x = 2
  · subst h₂
    rw [list_put_self _ (by decide) (by decide)]
    rfl
  · rw [list_put_ne _ h₂]
    by_cases h₁ : x = 1
    · subst h₁
      rw [list_put_self _ (by decide) (by decide)]
      rfl
    · rw [list_put_ne _ h₁]
      simp [h₁, h₂, list, get]

theorem lookup_pairStore_of_ne {x : Nat} (h₁ : x ≠ 1) (h₂ : x ≠ 2) : pairStore.lookup x = none := by
  unfold pairStore
  rw [lookup_put_ne _ h₂, lookup_put_ne _ h₁]
  rfl

end RocksDb

end Vend
