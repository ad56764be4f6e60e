import Mathlib.Data.Nat.Bitwise
import ServMark.Library.Mixing
import ServMark.Library.Probing

/-! The hash table of int_hash.c: open addressing over two arrays of 2^24 words, where the key
zero marks an empty cell. -/
namespace ServMark
open Mixing Probing

abbrev tableSize : Nat := 2 ^ 24
abbrev maxProbes : Nat := tableSize * 2

structure IntHashTable where
  tableKeys : Nat → UInt64
  tableVals : Nat → UInt64

/-- As calloc leaves the arrays. -/
def emptyTable : IntHashTable := ⟨fun _ => 0, fun _ => 0⟩

def hashFunc (key : UInt64) : UInt64 :=
  let key := ~~~key + (key <<< 21)
  let key := key ^^^ (key >>> 24)
  let key := (key + (key <<< 3)) + (key <<< 8)
  let key := key ^^^ (key >>> 14)
  let key := (key + (key <<< 2)) + (key <<< 4)
  let key := key ^^^ (key >>> 28)
  key + (key <<< 31)

/-- The steps of hash_func on the bits of a key. -/
def hashWord (x : BitVec 64) : BitVec 64 :=
  let x := ~~~x + x <<< 21
  let x := xorShift 24 x
  let x := (x + x <<< 3) + x <<< 8
  let x := xorShift 14 x
  let x := (x + x <<< 2) + x <<< 4
  let x := xorShift 28 x
  x + x <<< 31

theorem hashFunc_word (key : UInt64) : (hashFunc key).toBitVec = hashWord key.toBitVec := rfl

theorem hashWord_injective : Function.Injective hashWord := by
  have first : Function.Injective (fun x : BitVec 64 => ~~~x + x <<< 21) := by
    simp only [not_add_shiftLeft]
    exact sub_left_injective.comp (mul_odd_injective (by decide))
  have third : Function.Injective (fun x : BitVec 64 => (x + x <<< 3) + x <<< 8) := by
    simp only [self_add_shiftLeft, add_shiftLeft]
    exact mul_odd_injective (by decide)
  have fifth : Function.Injective (fun x : BitVec 64 => (x + x <<< 2) + x <<< 4) := by
    simp only [self_add_shiftLeft, add_shiftLeft]
    exact mul_odd_injective (by decide)
  have seventh : Function.Injective (fun x : BitVec 64 => x + x <<< 31) := by
    simp only [self_add_shiftLeft]
    exact mul_odd_injective (by decide)
  have second : Function.Injective (xorShift 24 : BitVec 64 → BitVec 64) := xorShift_injective (by decide)
  have fourth : Function.Injective (xorShift 14 : BitVec 64 → BitVec 64) := xorShift_injective (by decide)
  have sixth : Function.Injective (xorShift 28 : BitVec 64 → BitVec 64) := xorShift_injective (by decide)
  exact seventh.comp (sixth.comp (fifth.comp (fourth.comp (third.comp (second.comp first)))))

/-- Two keys share a first slot only because their hash is cut to the size of the table. -/
theorem hash_func_bijective : Function.Bijective hashFunc := by
  have single : Function.Injective hashFunc := by
    intro k₁ k₂ same
    have words := congrArg UInt64.toBitVec same
    rw [hashFunc_word, hashFunc_word] at words
    exact UInt64.toBitVec_inj.mp (hashWord_injective words)
  have finite : Finite UInt64 := Finite.of_injective UInt64.toFin (fun _ _ => UInt64.toFin_inj.mp)
  exact Finite.injective_iff_bijective.mp single

def firstSlot (key : UInt64) : Nat := (hashFunc key).toNat &&& (tableSize - 1)

def nextSlot (h : Nat) : Nat := (h + 1) &&& (tableSize - 1)

/-- The loop of hash_insert, with the number of probes left to MAX_PROBES. -/
def insertSlot (s : IntHashTable) (key : UInt64) : Nat → Nat → Option Nat
  | 0, _ => none
  | probes + 1, h =>
    if s.tableKeys h ≠ 0 ∧ s.tableKeys h ≠ key then insertSlot s key probes (nextSlot h) else some h

def hashInsert (s : IntHashTable) (key val : UInt64) : IntHashTable :=
  match insertSlot s key maxProbes (firstSlot key) with
  | none => s
  | some h => ⟨Function.update s.tableKeys h key, Function.update s.tableVals h val⟩

/-- The loop of hash_lookup and of hash_delete, with the number of probes left to TABLE_SIZE. -/
def findSlot (s : IntHashTable) (key : UInt64) : Nat → Nat → Option Nat
  | 0, _ => none
  | probes + 1, h =>
    if s.tableKeys h ≠ key then
      if s.tableKeys h = 0 then none else findSlot s key probes (nextSlot h)
    else some h

def hashLookup (s : IntHashTable) (key : UInt64) : UInt64 :=
  match findSlot s key tableSize (firstSlot key) with
  | none => 0
  | some h => s.tableVals h

def hashDelete (s : IntHashTable) (key : UInt64) : IntHashTable :=
  match findSlot s key tableSize (firstSlot key) with
  | none => s
  | some h => ⟨Function.update s.tableKeys h 0, Function.update s.tableVals h 0⟩

inductive HashOp where
  | insert (key val : UInt64)
  | lookup (key : UInt64)
  | delete (key : UInt64)

def HashOp.key : HashOp → UInt64
  | insert key _ => key
  | lookup key => key
  | delete key => key

def runOp (s : IntHashTable) : HashOp → IntHashTable
  | .insert key val => hashInsert s key val
  | .lookup _ => s
  | .delete key => hashDelete s key

def runOps (ops : List HashOp) : IntHashTable := ops.foldl runOp emptyTable

/-- What a finite map does on these calls. -/
def mapOp (m : UInt64 → Option UInt64) : HashOp → UInt64 → Option UInt64
  | .insert key val => Function.update m key (some val)
  | .lookup _ => m
  | .delete key => Function.update m key none

/-- For each key the value last inserted and not deleted since. -/
def present (ops : List HashOp) : UInt64 → Option UInt64 := ops.foldl mapOp (fun _ => none)

def Fewer (m : UInt64 → Option UInt64) : Prop :=
  ∀ ks : List UInt64, ks.Nodup → (∀ k ∈ ks, m k ≠ none) → ks.length < tableSize

def entries (s : IntHashTable) (h : Nat) : Option (UInt64 × UInt64) :=
  if s.tableKeys h = 0 then none else some (s.tableKeys h, s.tableVals h)

/-- The cell of the key is on the way from no other key's first slot to where that key stands. -/
def DeleteClear (s : IntHashTable) (key : UInt64) : Prop :=
  ∀ h val, entries s h = some (key, val) → Clear tableSize firstSlot (entries s) h

def DeletesClear (ops : List HashOp) : Prop :=
  ∀ front key, front ++ [.delete key] <+: ops → DeleteClear (runOps front) key

/-- After every call each lookup gives what the map has. -/
def LookupsRight (ops : List HashOp) : Prop :=
  ∀ front, front <+: ops → ∀ key, key ≠ 0 → hashLookup (runOps front) key = (present front key).getD 0

theorem firstSlot_lt (key : UInt64) : firstSlot key < tableSize :=
  Nat.and_lt_two_pow _ (by decide)

theorem nextSlot_eq (h : Nat) : nextSlot h = (h + 1) % tableSize := Nat.and_two_pow_sub_one_eq_mod _ 24

section Slots
variable {s : IntHashTable} {key : UInt64}

theorem insertSlot_seek (nonzero : key ≠ 0) (fuel h : Nat) :
    insertSlot s key fuel h = seek tableSize (entries s) key fuel h := by
  induction fuel generalizing h with
  | zero => rfl
  | succ fuel ih =>
    unfold insertSlot seek entries
    by_cases empty : s.tableKeys h = 0
    · simp only [empty, ne_eq, not_true, false_and, if_false, if_true]
    · by_cases own : s.tableKeys h = key
      · simp only [own, nonzero, ne_eq, not_true, and_false, if_false, if_true]
      · simp only [empty, own, ne_eq, not_false_eq_true, and_self, if_true, if_false, ih, nextSlot_eq]
        rfl

theorem findSlot_seek (nonzero : key ≠ 0) (fuel h : Nat) : findSlot s key fuel h =
    (seek tableSize (entries s) key fuel h).bind (fun i => if s.tableKeys i = 0 then none else some i) := by
  induction fuel generalizing h with
  | zero => rfl
  | succ fuel ih =>
    unfold findSlot seek entries
    by_cases empty : s.tableKeys h = 0
    · simp only [empty, ne_eq, nonzero.symm, not_false_eq_true, if_true, Option.bind_some]
    · by_cases own : s.tableKeys h = key
      · simp only [own, nonzero, ne_eq, not_true, if_false, if_true, Option.bind_some]
      · simp only [empty, own, ne_eq, not_false_eq_true, if_true, if_false, ih, nextSlot_eq]
        rfl

theorem entries_insert (nonzero : key ≠ 0) (val : UInt64) (h : Nat) :
    entries ⟨Function.update s.tableKeys h key, Function.update s.tableVals h val⟩ =
      Function.update (entries s) h (some (key, val)) := by
  funext i
  rcases eq_or_ne i h with rfl | other
  · simp only [entries, Function.update_self, if_neg nonzero]
  · simp only [entries, Function.update_of_ne other]

theorem entries_delete (h : Nat) :
    entries ⟨Function.update s.tableKeys h 0, Function.update s.tableVals h 0⟩ =
      Function.update (entries s) h none := by
  funext i
  rcases eq_or_ne i h with rfl | other
  · simp only [entries, Function.update_self, if_true]
  · simp only [entries, Function.update_of_ne other]

theorem lookup_seek (nonzero : key ≠ 0) : hashLookup s key =
    (((seek tableSize (entries s) key tableSize (firstSlot key)).bind (entries s)).map Prod.snd).getD 0 := by
  unfold hashLookup
  rw [findSlot_seek nonzero]
  cases seek tableSize (entries s) key tableSize (firstSlot key) with
  | none => rfl
  | some h =>
    simp only [Option.bind_some, entries]
    by_cases empty : s.tableKeys h = 0
    · simp only [empty, if_true]
      rfl
    · simp only [empty, if_false]
      rfl

end Slots

/-- What the table is while it agrees with the map. -/
structure Agrees (s : IntHashTable) (m : UInt64 → Option UInt64) : Prop where
  chained : Chained tableSize firstSlot (entries s)
  holds : Holds (entries s) m
  tidy : ∀ h, s.tableKeys h = 0 → s.tableVals h = 0

theorem empty_agrees : Agrees emptyTable (fun _ => none) := by
  have none_ : ∀ h, entries emptyTable h = none := fun _ => rfl
  refine ⟨⟨fun i p here => ?_, fun i j k v w here => ?_, fun i k v here => ?_⟩, fun k v => ?_, fun _ _ => rfl⟩
  · rw [none_] at here; cases here
  · rw [none_] at here; cases here
  · rw [none_] at here; cases here
  · exact iff_of_false (by simp) (by simp [none_])

section Agreement
variable {s : IntHashTable} {m : UInt64 → Option UInt64}

theorem Agrees.lookup (agrees : Agrees s m) {key : UInt64} (nonzero : key ≠ 0) :
    hashLookup s key = (m key).getD 0 := by
  rw [lookup_seek nonzero, seek_finds agrees.chained agrees.holds (firstSlot_lt key) (Nat.le_refl _)]

theorem Agrees.empty (agrees : Agrees s m) (none_ : ∀ key, m key = none) : s = emptyTable := by
  have keys : ∀ h, s.tableKeys h = 0 := by
    intro h
    by_contra filled
    have here : entries s h = some (s.tableKeys h, s.tableVals h) := if_neg filled
    exact holds_absent agrees.holds (none_ _) h _ here
  obtain ⟨tableKeys, tableVals⟩ := s
  have vals : ∀ h, tableVals h = 0 := fun h => agrees.tidy h (keys h)
  rw [emptyTable, IntHashTable.mk.injEq]
  exact ⟨funext keys, funext vals⟩

/-- Where an insert stores. -/
theorem Agrees.stored (agrees : Agrees s m) {key : UInt64} (nonzero : key ≠ 0) (val : UInt64)
    (fewer : Fewer (Function.update m key (some val))) :
    ∃ i, seek tableSize (entries s) key maxProbes (firstSlot key) = some i ∧
      hashInsert s key val = ⟨Function.update s.tableKeys i key, Function.update s.tableVals i val⟩ ∧
      Chained tableSize firstSlot (Function.update (entries s) i (some (key, val))) ∧
      Holds (Function.update (entries s) i (some (key, val))) (Function.update m key (some val)) := by
  have room : m key = none → ∃ i, i < tableSize ∧ entries s i = none := by
    intro absent
    refine exists_empty agrees.chained agrees.holds (fun ks apart all => fewer ks apart (fun k member => ?_))
    have other : k ≠ key := by
      rintro rfl
      exact all k member absent
    rw [Function.update_of_ne other]
    exact all k member
  obtain ⟨i, found, _, chained, holds⟩ :=
    insert_sound agrees.chained agrees.holds (firstSlot_lt key) room (show tableSize ≤ maxProbes by decide) val
  have stored : hashInsert s key val = ⟨Function.update s.tableKeys i key, Function.update s.tableVals i val⟩ := by
    simp only [hashInsert, insertSlot_seek nonzero, found]
  exact ⟨i, found, stored, chained, holds⟩

theorem Agrees.insert (agrees : Agrees s m) {key : UInt64} (nonzero : key ≠ 0) (val : UInt64)
    (fewer : Fewer (Function.update m key (some val))) :
    Agrees (hashInsert s key val) (Function.update m key (some val)) := by
  obtain ⟨i, _, stored, chained, holds⟩ := agrees.stored nonzero val fewer
  rw [← entries_insert nonzero] at chained holds
  rw [stored]
  refine ⟨chained, holds, fun h empty => ?_⟩
  rcases eq_or_ne h i with rfl | other
  · simp only [Function.update_self] at empty
    exact absurd empty nonzero
  · simp only [Function.update_of_ne other] at empty ⊢
    exact agrees.tidy h empty

theorem Agrees.delete (agrees : Agrees s m) {key : UInt64} (nonzero : key ≠ 0) (clear : DeleteClear s key) :
    Agrees (hashDelete s key) (Function.update m key none) := by
  cases has : m key with
  | none =>
    have same : Function.update m key none = m := by rw [← has, Function.update_eq_self]
    have stays : hashDelete s key = s := by
      unfold hashDelete
      rw [findSlot_seek nonzero]
      cases found : seek tableSize (entries s) key tableSize (firstSlot key) with
      | none => rfl
      | some h =>
        rcases seek_stops found with empty | ⟨v, here⟩
        · have zero : s.tableKeys h = 0 := by
            by_contra filled
            simp [entries, filled] at empty
          simp only [Option.bind_some, zero, if_true]
        · exact absurd here (holds_absent agrees.holds has h v)
    rw [same, stays]
    exact agrees
  | some val =>
    obtain ⟨i, here⟩ := (agrees.holds key val).mp has
    have found := seek_present agrees.chained here (firstSlot_lt key) (Nat.le_refl _)
    have filled : s.tableKeys i ≠ 0 := by
      intro zero
      simp [entries, zero] at here
    have stored : hashDelete s key = ⟨Function.update s.tableKeys i 0, Function.update s.tableVals i 0⟩ := by
      simp only [hashDelete, findSlot_seek nonzero, found, Option.bind_some, if_neg filled]
    obtain ⟨chained, holds⟩ := delete_sound agrees.chained agrees.holds here (clear i val here)
    rw [← entries_delete] at chained holds
    rw [stored]
    refine ⟨chained, holds, fun h empty => ?_⟩
    rcases eq_or_ne h i with rfl | other
    · exact Function.update_self ..
    · simp only [Function.update_of_ne other] at empty ⊢
      exact agrees.tidy h empty

/-- A delete that is not clear hides a key that is still present. -/
theorem Agrees.hides (agrees : Agrees s m) {key : UInt64} (nonzero : key ≠ 0) (unclear : ¬ DeleteClear s key) :
    ∃ other val, other ≠ 0 ∧ Function.update m key none other = some val ∧ hashLookup (hashDelete s key) other = 0 := by
  unfold DeleteClear Clear at unclear
  push Not at unclear
  obtain ⟨i, w, here, j, other, val, d, there, near, at_, e, earlier, through⟩ := unclear
  have found := seek_present agrees.chained here (firstSlot_lt key) (Nat.le_refl _)
  have filled : s.tableKeys i ≠ 0 := by
    intro zero
    simp [entries, zero] at here
  have solid : other ≠ 0 := by
    rintro rfl
    unfold entries at there
    split at there
    · cases there
    · rename_i some_
      exact some_ (Prod.mk.inj (Option.some.inj there)).1
  have apart : other ≠ key := by
    rintro rfl
    have same := cell_inj (firstSlot_lt other) (by omega) near
      (through.trans ((agrees.chained.once i j other w val here there).trans at_))
    omega
  refine ⟨other, val, solid, ?_, ?_⟩
  · rw [Function.update_of_ne apart]
    exact (agrees.holds other val).mpr ⟨j, there⟩
  · have stored : hashDelete s key = ⟨Function.update s.tableKeys i 0, Function.update s.tableVals i 0⟩ := by
      simp only [hashDelete, findSlot_seek nonzero, found, Option.bind_some, if_neg filled]
    rw [stored, lookup_seek solid, entries_delete,
      broken_lost agrees.chained there (firstSlot_lt other) near at_ earlier through (Nat.le_refl _)]
    rfl

/-- A key that has just come stands in a cell that was empty, so on no other key's way. -/
theorem Agrees.clear_new (agrees : Agrees s m) {key : UInt64} (nonzero : key ≠ 0) (absent : m key = none)
    (val : UInt64) (fewer : Fewer (Function.update m key (some val))) : DeleteClear (hashInsert s key val) key := by
  obtain ⟨i, found, stored, _, _⟩ := agrees.stored nonzero val fewer
  have empty : entries s i = none := (seek_stops found).resolve_right
    (fun ⟨v, here⟩ => holds_absent agrees.holds absent i v here)
  intro h v here j other w d there near at_ e earlier through
  rw [stored, entries_insert nonzero] at here there
  have place : h = i := by
    by_contra apart
    rw [Function.update_of_ne apart] at here
    exact holds_absent agrees.holds absent h v here
  subst place
  rcases eq_or_ne j h with rfl | apart
  · have same := cell_inj (firstSlot_lt other) (by omega) near (through.trans at_)
    omega
  · rw [Function.update_of_ne apart] at there
    obtain ⟨d', near', at', path⟩ := agrees.chained.chain j other w there
    obtain rfl : d = d' := cell_inj (firstSlot_lt other) near near' (at_.symm.trans at')
    exact path e earlier (by rw [through, empty])

/-- The only key of a table is deleted without harm. -/
theorem Agrees.clear_alone (agrees : Agrees s m) {key : UInt64} (alone : ∀ other, other ≠ key → m other = none) :
    DeleteClear s key := by
  intro i val here j other w d there near at_ e earlier through
  have same : other = key := by
    by_contra apart
    exact holds_absent agrees.holds (alone other apart) j w there
  subst same
  have twice := agrees.chained.once i j other val w here there
  have collide := cell_inj (firstSlot_lt other) (by omega) near (through.trans (twice.trans at_))
  omega

end Agreement

section Runs

theorem runOps_append (front : List HashOp) (op : HashOp) : runOps (front ++ [op]) = runOp (runOps front) op :=
  List.foldl_append ..

theorem present_append (front : List HashOp) (op : HashOp) : present (front ++ [op]) = mapOp (present front) op :=
  List.foldl_append ..

theorem runOp_agrees {s : IntHashTable} {m : UInt64 → Option UInt64} (agrees : Agrees s m) {op : HashOp}
    (nonzero : op.key ≠ 0) (fewer : Fewer (mapOp m op)) (clear : ∀ key, op = .delete key → DeleteClear s key) :
    Agrees (runOp s op) (mapOp m op) := by
  cases op with
  | insert key val => exact agrees.insert nonzero val fewer
  | lookup key => exact agrees
  | delete key => exact agrees.delete nonzero (clear key rfl)

variable {ops : List HashOp}

/-- Along calls whose deletes are all clear the table holds the map. -/
theorem runOps_agrees (keys : ∀ op ∈ ops, op.key ≠ 0) (fewer : ∀ front, front <+: ops → Fewer (present front))
    (clear : DeletesClear ops) : Agrees (runOps ops) (present ops) := by
  induction ops using List.reverseRecOn with
  | nil => exact empty_agrees
  | append_singleton front op ih =>
    have part : front <+: front ++ [op] := List.prefix_append front [op]
    have agrees := ih (fun before member => keys before (List.mem_append_left _ member))
      (fun earlier le => fewer earlier (le.trans part)) (fun earlier key le => clear earlier key (le.trans part))
    rw [runOps_append, present_append]
    refine runOp_agrees agrees (keys op (by simp)) ?_ (fun key same => ?_)
    · rw [← present_append]
      exact fewer _ (List.prefix_refl _)
    · exact clear front key (by rw [same])

/-- What the map has was inserted. -/
theorem present_inserted {key val : UInt64} (has : present ops key = some val) : .insert key val ∈ ops := by
  induction ops using List.reverseRecOn with
  | nil => cases has
  | append_singleton front op ih =>
    rw [present_append] at has
    rw [List.mem_append, List.mem_singleton]
    cases op with
    | insert k v =>
      rcases eq_or_ne key k with rfl | other
      · simp only [mapOp, Function.update_self, Option.some.injEq] at has
        exact Or.inr (by rw [has])
      · simp only [mapOp, Function.update_of_ne other] at has
        exact Or.inl (ih has)
    | lookup k => exact Or.inl (ih has)
    | delete k =>
      rcases eq_or_ne key k with rfl | other
      · simp only [mapOp, Function.update_self] at has
        cases has
      · simp only [mapOp, Function.update_of_ne other] at has
        exact Or.inl (ih has)

/-- The first delete that is not clear makes a lookup wrong. -/
theorem deletes_clear_of_right (keys : ∀ op ∈ ops, op.key ≠ 0) (fewer : ∀ front, front <+: ops → Fewer (present front))
    (values : ∀ key val, .insert key val ∈ ops → val ≠ 0) (right : LookupsRight ops) : DeletesClear ops := by
  induction ops using List.reverseRecOn with
  | nil =>
    intro front key part
    simp at part
  | append_singleton front op ih =>
    have part : front <+: front ++ [op] := List.prefix_append front [op]
    have front_keys : ∀ before ∈ front, before.key ≠ 0 := fun before member =>
      keys before (List.mem_append_left _ member)
    have front_fewer : ∀ earlier, earlier <+: front → Fewer (present earlier) := fun earlier le =>
      fewer earlier (le.trans part)
    have clear := ih front_keys front_fewer (fun key val member => values key val (List.mem_append_left _ member))
      (fun earlier le => right earlier (le.trans part))
    have agrees := runOps_agrees front_keys front_fewer clear
    intro earlier key le
    rcases List.prefix_concat_iff.mp le with whole | before
    · obtain ⟨rfl, same⟩ := List.append_inj' whole rfl
      obtain rfl := List.singleton_inj.mp same
      by_contra unclear
      have nonzero : key ≠ 0 := keys (.delete key) (by simp)
      obtain ⟨other, val, solid, has, lost⟩ := agrees.hides nonzero unclear
      have shown := right _ (List.prefix_refl _) other solid
      rw [runOps_append, present_append] at shown
      have zero : val = 0 := by
        simp only [runOp, mapOp, lost, has, Option.getD_some] at shown
        exact shown.symm
      have inserted : .insert other val ∈ earlier := by
        refine present_inserted ?_
        rcases eq_or_ne other key with rfl | apart
        · rw [Function.update_self] at has
          cases has
        · rwa [Function.update_of_ne apart] at has
      exact values other val (List.mem_append_left _ inserted) zero
    · exact clear earlier key before

def insertAll (pairs : List (UInt64 × UInt64)) : List HashOp := pairs.map (fun p => .insert p.1 p.2)

def deleteAll (pairs : List (UInt64 × UInt64)) : List HashOp := pairs.map (fun p => .delete p.1)

theorem present_deleteAll (front : List HashOp) (pairs : List (UInt64 × UInt64)) (key : UInt64) :
    present (front ++ deleteAll pairs) key = if key ∈ pairs.map Prod.fst then none else present front key := by
  induction pairs using List.reverseRecOn with
  | nil => simp [deleteAll]
  | append_singleton pairs p ih =>
    have last : deleteAll (pairs ++ [p]) = deleteAll pairs ++ [.delete p.1] := by simp [deleteAll]
    rw [last, ← List.append_assoc, present_append]
    simp only [mapOp, List.map_append, List.map_cons, List.map_nil, List.mem_append, List.mem_singleton]
    rcases eq_or_ne key p.1 with rfl | other
    · simp
    · rw [Function.update_of_ne other, ih]
      simp only [other, or_false]

theorem present_both (pairs : List (UInt64 × UInt64)) (key : UInt64) :
    present (insertAll pairs ++ deleteAll pairs) key = none := by
  rw [present_deleteAll]
  split
  · rfl
  · rename_i absent
    cases has : present (insertAll pairs) key with
    | none => rfl
    | some val =>
      obtain ⟨p, member, same⟩ := List.mem_map.mp (present_inserted has)
      cases same
      exact absurd (List.mem_map_of_mem member) absent

end Runs

/-- The table is a finite map in every run of calls whose deletes empty no cell on the way to
another key, and, unless the value zero is inserted, in no other run. -/
theorem int_hash_map (ops : List HashOp) (keys : ∀ op ∈ ops, op.key ≠ 0)
    (fewer : ∀ front, front <+: ops → Fewer (present front)) :
    (DeletesClear ops → LookupsRight ops ∧
      ∀ pairs, ops = insertAll pairs ++ deleteAll pairs → runOps ops = emptyTable) ∧
    ((∀ key val, .insert key val ∈ ops → val ≠ 0) → LookupsRight ops → DeletesClear ops) := by
  refine ⟨fun clear => ⟨fun front part key nonzero => ?_, ?_⟩, deletes_clear_of_right keys fewer⟩
  · have agrees := runOps_agrees (fun op member => keys op (part.subset member))
      (fun earlier le => fewer earlier (le.trans part)) (fun earlier k le => clear earlier k (le.trans part))
    exact agrees.lookup nonzero
  · rintro pairs rfl
    exact (runOps_agrees keys fewer clear).empty (present_both pairs)

theorem fewer_of_inserts {ops : List HashOp} (short : ops.length < tableSize) : Fewer (present ops) := by
  intro ks apart all
  have within : ks ⊆ ops.map HashOp.key := by
    intro k member
    obtain ⟨val, has⟩ := Option.ne_none_iff_exists'.mp (all k member)
    exact List.mem_map.mpr ⟨_, present_inserted has, rfl⟩
  have counted := (List.subperm_of_subset apart within).length_le
  rw [List.length_map] at counted
  omega

/- Two keys with one first slot; the one that came first is deleted. -/
def collidingOps : List HashOp := [.insert 3484 1, .insert 10916 2, .delete 3484]

theorem colliding_fewer (front : List HashOp) (part : front <+: collidingOps) : Fewer (present front) := by
  have short := part.length_le
  exact fewer_of_inserts (Nat.lt_of_le_of_lt short (by decide))

/- The same two keys, of which the later one is deleted first. -/
def nestedOps : List HashOp := [.insert 3484 1, .insert 10916 2, .delete 10916, .lookup 3484, .delete 3484]

theorem nested_fewer (front : List HashOp) (part : front <+: nestedOps) : Fewer (present front) := by
  have short := part.length_le
  exact fewer_of_inserts (Nat.lt_of_le_of_lt short (by decide))

theorem nested_clear : DeletesClear nestedOps := by
  have first : Agrees (hashInsert emptyTable 3484 1) (present [.insert 3484 1]) :=
    empty_agrees.insert (by decide) 1 (nested_fewer [.insert 3484 1] ⟨_, rfl⟩)
  have both : Fewer (present [.insert 3484 1, .insert 10916 2]) := nested_fewer _ ⟨_, rfl⟩
  have later : DeleteClear (hashInsert (hashInsert emptyTable 3484 1) 10916 2) 10916 :=
    first.clear_new (by decide) (by decide) 2 both
  have left : Agrees (hashDelete (hashInsert (hashInsert emptyTable 3484 1) 10916 2) 10916)
      (present [.insert 3484 1, .insert 10916 2, .delete 10916]) :=
    (first.insert (by decide) 2 both).delete (by decide) later
  have alone : DeleteClear (hashDelete (hashInsert (hashInsert emptyTable 3484 1) 10916 2) 10916) 3484 := by
    refine left.clear_alone (fun other apart => ?_)
    rcases eq_or_ne other 10916 with rfl | third
    · decide
    · simp only [present, List.foldl_cons, List.foldl_nil, mapOp, Function.update_of_ne apart,
        Function.update_of_ne third]
  rintro front key ⟨rest, whole⟩
  have shape : (front = [.insert 3484 1, .insert 10916 2] ∧ key = 10916) ∨
      (front = [.insert 3484 1, .insert 10916 2, .delete 10916, .lookup 3484] ∧ key = 3484) := by
    rcases front with _ | ⟨a, _ | ⟨b, _ | ⟨c, _ | ⟨d, _ | ⟨e, front⟩⟩⟩⟩⟩ <;> simp_all [nestedOps]
  rcases shape with ⟨rfl, rfl⟩ | ⟨rfl, rfl⟩
  · exact later
  · exact alone

theorem nested_map : LookupsRight nestedOps :=
  ((int_hash_map nestedOps (by decide) nested_fewer).1 nested_clear).1

theorem delete_hides_key :
    (∀ op ∈ collidingOps, op.key ≠ 0) ∧ (∀ front, front <+: collidingOps → Fewer (present front)) ∧
      present collidingOps 10916 = some 2 ∧ hashLookup (runOps collidingOps) 10916 = 0 ∧
      ¬ LookupsRight collidingOps := by
  have lost : hashLookup (runOps collidingOps) 10916 = 0 := by decide
  have has : present collidingOps 10916 = some 2 := by decide
  refine ⟨by decide, colliding_fewer, has, lost, fun right => ?_⟩
  have shown := right collidingOps (List.prefix_refl _) 10916 (by decide)
  rw [lost, has] at shown
  exact absurd shown (by decide)

end ServMark
