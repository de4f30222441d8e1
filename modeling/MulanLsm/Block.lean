import Mathlib.Data.List.Induction
import MulanLsm.Library.Search
import MulanLsm.Library.Slice
import MulanLsm.Table

/-! Blocks, read.  A block is the entries of a builder, each with its key cut by the prefix that it
shares with the key before, and the places where a whole key stands.  What a builder made of entries
is read back as these entries, and a search in it finds what a search in the list finds. -/

namespace MulanLsm

open Slice

/-- `a.checked_add(b)` -/
def checkedAdd (a b : Nat) : Option Nat := if a + b < 2 ^ 64 then some (a + b) else none

structure ParsedEntry where
  key : Bytes
  value : Bytes
  nextOffset : Nat

/-- A block's bytes, where its restart points stand in them and how many they are. -/
structure Block where
  data : Bytes
  restartsOffset : Nat
  numRestarts : Nat

namespace Block

def new (data : Bytes) : Result Block :=
  if data.length < 4 then .error (.corrupted "block too short for num_restarts")
  else
    let numRestarts := fromLeBytes (data.drop (data.length - 4))
    let restartsBytes := numRestarts * 4
    if data.length < 4 + restartsBytes then
      .error (.corrupted s!"block too short for {numRestarts} restarts")
    else .ok { data, restartsOffset := data.length - 4 - restartsBytes, numRestarts }

/-- Where the entry of the restart point `i` stands. -/
def restartOffset (b : Block) (i : Nat) : Nat :=
  fromLeBytes ((b.data.drop (b.restartsOffset + i * 4)).take 4)

/-- The entry at a restart point: its key, its value and where the next one stands. -/
def entryAt (b : Block) (offset : Nat) : Result (Bytes × Bytes × Nat) := do
  let corrupted {α : Type} (msg : String) (x : Option α) : Result α :=
    x.elim (.error (.corrupted msg)) .ok
  let (_, n1) ← decodeVarint32 (← corrupted "entry_at: offset out of bounds"
    (getFrom b.data offset))
  let (nonShared, n2) ← decodeVarint32
    (← corrupted "entry_at: non_shared varint out of bounds" (getFrom b.data (offset + n1)))
  let (valueLen, n3) ← decodeVarint32
    (← corrupted "entry_at: value_len varint out of bounds" (getFrom b.data (offset + n1 + n2)))
  let keyDeltaStart ← corrupted "entry_at: header_len overflow" (checkedAdd offset (n1 + n2 + n3))
  let keyDeltaEnd ← corrupted "entry_at: non_shared overflow" (checkedAdd keyDeltaStart nonShared)
  let valueEnd ← corrupted "entry_at: value_len overflow" (checkedAdd keyDeltaEnd valueLen)
  let keyDelta ← corrupted "entry_at: key_delta out of bounds"
    (getRange b.data keyDeltaStart keyDeltaEnd)
  let value ← corrupted "entry_at: value out of bounds" (getRange b.data keyDeltaEnd valueEnd)
  return (keyDelta, value, valueEnd)

/-- The entry at `offset`, after the key `lastKey`. -/
def parseEntry (b : Block) (offset : Nat) (lastKey : Bytes) : Option ParsedEntry := do
  let (shared, n1) ← (decodeVarint32 (← getFrom b.data offset)).toOption
  let (nonShared, n2) ← (decodeVarint32 (← getFrom b.data (offset + n1))).toOption
  let (valueLen, n3) ← (decodeVarint32 (← getFrom b.data (offset + n1 + n2))).toOption
  let keyDeltaStart ← checkedAdd offset (n1 + n2 + n3)
  let keyDeltaEnd ← checkedAdd keyDeltaStart nonShared
  let valueEnd ← checkedAdd keyDeltaEnd valueLen
  if valueEnd > b.restartsOffset then none
  else
    let keyDelta ← getRange b.data keyDeltaStart keyDeltaEnd
    if shared > lastKey.length then none
    else
      let value ← getRange b.data keyDeltaEnd valueEnd
      return { key := lastKey.take shared ++ keyDelta, value, nextOffset := valueEnd }

def isPastEntries (b : Block) (offset : Nat) : Bool := decide (offset ≥ b.restartsOffset)

def restartingKeyAt (b : Block) (i : Nat) : Option Bytes :=
  (b.entryAt (b.restartOffset i)).toOption.map (·.1)

def valueAtRestart (b : Block) (i : Nat) : Option Bytes :=
  (b.entryAt (b.restartOffset i)).toOption.map (·.2.1)

theorem checkedAdd_small {x y : Nat} (h : x + y < 2 ^ 32) : checkedAdd x y = some (x + y) :=
  if_pos (by omega)

theorem checkedAdd_eq_some {x y z : Nat} (h : checkedAdd x y = some z) : z = x + y := by
  unfold checkedAdd at h
  split at h
  · exact (Option.some.inj h).symm
  · cases h

/-- An entry that is parsed starts with the length of the part that its key shares, and ends in
front of the restart points. -/
theorem parseEntry_eq_some {b : Block} {offset : Nat} {lastKey : Bytes} {e : ParsedEntry}
    (h : b.parseEntry offset lastKey = some e) :
    ∃ buf shared n start stop delta, (decodeVarint32 buf).toOption = some (shared, n) ∧
      offset + n ≤ e.nextOffset ∧ e.nextOffset ≤ b.restartsOffset ∧
      getRange b.data start stop = some delta ∧ e.key = lastKey.take shared ++ delta := by
  obtain ⟨buf, -, h⟩ := Option.bind_eq_some_iff.mp h
  obtain ⟨⟨shared, n⟩, hShared, h⟩ := Option.bind_eq_some_iff.mp h
  obtain ⟨_, -, h⟩ := Option.bind_eq_some_iff.mp h
  obtain ⟨⟨nonShared, n2⟩, -, h⟩ := Option.bind_eq_some_iff.mp h
  obtain ⟨_, -, h⟩ := Option.bind_eq_some_iff.mp h
  obtain ⟨⟨valueLen, n3⟩, -, h⟩ := Option.bind_eq_some_iff.mp h
  obtain ⟨start, hStart, h⟩ := Option.bind_eq_some_iff.mp h
  obtain ⟨stop, hStop, h⟩ := Option.bind_eq_some_iff.mp h
  obtain ⟨next, hNext, h⟩ := Option.bind_eq_some_iff.mp h
  have hStart := checkedAdd_eq_some hStart
  have hStop := checkedAdd_eq_some hStop
  have hNext := checkedAdd_eq_some hNext
  split at h
  · cases h
  · next hEnd =>
    obtain ⟨delta, hDelta, h⟩ := Option.bind_eq_some_iff.mp h
    split at h
    · cases h
    · obtain ⟨value, -, h⟩ := Option.bind_eq_some_iff.mp h
      obtain rfl := Option.some.inj h
      exact ⟨buf, shared, n, start, stop, delta, hShared, by simp only; omega,
        Nat.le_of_not_gt hEnd, hDelta, rfl⟩

theorem lt_of_parseEntry {b : Block} {offset : Nat} {lastKey : Bytes} {e : ParsedEntry}
    (h : b.parseEntry offset lastKey = some e) : offset < e.nextOffset := by
  obtain ⟨_, _, _, _, _, _, hShared, hNext, -⟩ := parseEntry_eq_some h
  have := decodeVarint32_pos (eq_ok_of_toOption hShared)
  omega

/-- The first entry from `offset` on whose key does not come `before`. -/
def scan (b : Block) (before : Bytes → Bool) (offset : Nat) (lastKey : Bytes) :
    Option ParsedEntry :=
  match _h : b.parseEntry offset lastKey with
  | none => none
  | some entry =>
    if before entry.key then
      if _hPast : b.isPastEntries entry.nextOffset then none
      else b.scan before entry.nextOffset entry.key
    else some entry
termination_by b.restartsOffset - offset
decreasing_by
  have := lt_of_parseEntry _h
  simp only [isPastEntries, ge_iff_le, decide_eq_true_eq] at _hPast
  omega

/-- The entries from `offset` on, after the key `lastKey` (`BlockIter`). -/
def iterFrom (b : Block) (offset : Nat) (lastKey : Bytes) : List (Bytes × Bytes) :=
  if _hPast : b.isPastEntries offset then []
  else
    match _h : b.parseEntry offset lastKey with
    | none => []
    | some entry => (entry.key, entry.value) :: b.iterFrom entry.nextOffset entry.key
termination_by b.restartsOffset - offset
decreasing_by
  have := lt_of_parseEntry _h
  simp only [isPastEntries, ge_iff_le, decide_eq_true_eq] at _hPast
  omega

def iter (b : Block) : List (Bytes × Bytes) := b.iterFrom 0 []

/-- The first entry with a key that does not come before `target`: the restart points are searched
for where it can be, and the entries from there on looked through. -/
def lowerBoundEntry (b : Block) (target : Bytes) (cmp : Bytes → Bytes → Ordering) :
    Option ParsedEntry := do
  let lo ← Search.bisect (fun mid => (b.restartingKeyAt mid).map fun key => cmp target key == .gt)
    0 b.numRestarts
  let startRestart := min (lo - 1) (b.numRestarts - 1)
  let lastKey ← b.restartingKeyAt startRestart
  b.scan (fun key => cmp target key == .gt) (b.restartOffset startRestart) lastKey

/-- The loop of `get`: the restart point with the key `target`, or the first with a later key. -/
def getLoop (b : Block) (target : Bytes) (cmp : Bytes → Bytes → Ordering) (lo hi : Nat) :
    Option (Nat ⊕ Nat) :=
  if lo < hi then
    let mid := (lo + hi) / 2
    match b.restartingKeyAt mid with
    | none => none
    | some restartKey =>
      match cmp target restartKey with
      | .lt => b.getLoop target cmp lo mid
      | .eq => some (.inl mid)
      | .gt => b.getLoop target cmp (mid + 1) hi
  else some (.inr lo)
termination_by hi - lo

/-- The value of the key `target`. -/
def get (b : Block) (target : Bytes) (cmp : Bytes → Bytes → Ordering) : Option Bytes := do
  match ← b.getLoop target cmp 0 b.numRestarts with
  | .inl mid => b.valueAtRestart mid
  | .inr lo =>
    if lo = 0 then none
    else
      let lastKey ← b.restartingKeyAt (lo - 1)
      let entry ← b.scan (fun key => cmp target key == .gt) (b.restartOffset (lo - 1)) lastKey
      if cmp target entry.key = .eq then some entry.value else none

def lowerBound (b : Block) (target : Bytes) (cmp : Bytes → Bytes → Ordering) : Option Bytes :=
  (b.lowerBoundEntry target cmp).map (·.value)

def lowerBoundKv (b : Block) (target : Bytes) (cmp : Bytes → Bytes → Ordering) :
    Option (Bytes × Bytes) :=
  (b.lowerBoundEntry target cmp).map fun e => (e.key, e.value)

end Block

namespace BlockBuilder

/-- The builder once the entries `es` were added. -/
def of (es : List (Bytes × Bytes)) : BlockBuilder := es.foldl (fun b e => b.add e.1 e.2) {}

/-- Where the entry `i` of `es` stands in the block. -/
def pos (es : List (Bytes × Bytes)) (i : Nat) : Nat := (of (es.take i)).buf.length

/-- How much of the last key `add` leaves out of `key`. -/
def shared (b : BlockBuilder) (key : Bytes) : Nat :=
  if b.countSinceRestart < restartInterval then commonPrefixLen b.lastKey key else 0

/-- What `add` appends. -/
def entryBytes (b : BlockBuilder) (key value : Bytes) : Bytes :=
  encodeVarint32 (asU32 (b.shared key)) ++ (encodeVarint32 (asU32 (key.length - b.shared key)) ++
    (encodeVarint32 (asU32 value.length) ++ (key.drop (b.shared key) ++ value)))

section Layout

variable {b : BlockBuilder} {key value : Bytes} {es : List (Bytes × Bytes)} {e : Bytes × Bytes}
  {i : Nat}

theorem add_buf (b : BlockBuilder) (key value : Bytes) :
    (b.add key value).buf = b.buf ++ b.entryBytes key value := by
  by_cases h : b.countSinceRestart < restartInterval <;> simp [add, entryBytes, shared, h]

theorem entryBytes_length_pos (b : BlockBuilder) (key value : Bytes) :
    0 < (b.entryBytes key value).length := by
  have := encodeVarintLoop_length_pos (maxVarint32Len - 1) (asU32 (b.shared key))
  rw [entryBytes, List.length_append, encodeVarint32]
  omega

theorem commonPrefixLen_spec (a b : Bytes) : commonPrefixLen a b ≤ a.length ∧
    commonPrefixLen a b ≤ b.length ∧
    a.take (commonPrefixLen a b) = b.take (commonPrefixLen a b) := by
  fun_induction commonPrefixLen a b with
  | case1 a as bs ih => simpa using ih
  | case2 a as b bs h => simp
  | case3 a b => simp

theorem of_append (es : List (Bytes × Bytes)) (e : Bytes × Bytes) :
    of (es ++ [e]) = (of es).add e.1 e.2 := by
  simp [of]

theorem of_take_succ (h : es[i]? = some e) :
    of (es.take (i + 1)) = (of (es.take i)).add e.1 e.2 := by
  rw [List.take_add_one, h, Option.toList_some, of_append]

theorem pos_succ (h : es[i]? = some e) :
    pos es (i + 1) = pos es i + ((of (es.take i)).entryBytes e.1 e.2).length := by
  rw [pos, of_take_succ h, add_buf, List.length_append, pos]

theorem pos_lt (h : es[i]? = some e) : pos es i < pos es (i + 1) := by
  have := entryBytes_length_pos (of (es.take i)) e.1 e.2
  rw [pos_succ h]
  omega

theorem foldl_buf (b : BlockBuilder) (es : List (Bytes × Bytes)) :
    ∃ post, (es.foldl (fun b e => b.add e.1 e.2) b).buf = b.buf ++ post := by
  induction es generalizing b with
  | nil => exact ⟨[], (List.append_nil _).symm⟩
  | cons e es ih =>
    obtain ⟨post, hPost⟩ := ih (b.add e.1 e.2)
    exact ⟨b.entryBytes e.1 e.2 ++ post, by rw [List.foldl_cons, hPost, add_buf, List.append_assoc]⟩

/-- Each entry stands at its place. -/
theorem at_pos (h : es[i]? = some e) :
    At (of es).buf (pos es i) ((of (es.take i)).entryBytes e.1 e.2) := by
  obtain ⟨post, hPost⟩ := foldl_buf (of (es.take (i + 1))) (es.drop (i + 1))
  have hSplit : of es = (es.drop (i + 1)).foldl (fun b e => b.add e.1 e.2)
      (of (es.take (i + 1))) := by
    rw [of, of, ← List.foldl_append, List.take_append_drop]
  rw [hSplit, hPost, of_take_succ h, add_buf]
  exact at_append _ _ _

theorem of_lastKey (h : es[i]? = some e) : (of (es.take (i + 1))).lastKey = e.1 := by
  rw [of_take_succ h]
  rfl

theorem of_countSinceRestart (es : List (Bytes × Bytes)) :
    (of es).countSinceRestart = if es = [] then 0 else (es.length - 1) % 16 + 1 := by
  induction es using List.reverseRecOn with
  | nil => rfl
  | append_singleton es e ih =>
    have hAdd : (of (es ++ [e])).countSinceRestart =
        (if (of es).countSinceRestart < 16 then (of es).countSinceRestart else 0) + 1 := by
      rw [of_append]
      by_cases h : (of es).countSinceRestart < 16 <;> simp [add, restartInterval, h]
    rw [hAdd, ih]
    by_cases hNil : es = []
    · simp [hNil]
    · have := List.length_pos_iff.mpr hNil
      simp only [hNil, if_false, List.append_eq_nil_iff, List.cons_ne_self, and_self,
        List.length_append, List.length_singleton, Nat.add_sub_cancel]
      split <;> omega

/-- Where the key is a whole one: at the entries 0, 16, 32 and so on. -/
theorem shared_eq_zero (es : List (Bytes × Bytes)) (key : Bytes) (h : es.length % 16 = 0) :
    (of es).shared key = 0 := by
  by_cases hNil : es = []
  · subst hNil
    cases key <;> rfl
  · have := List.length_pos_iff.mpr hNil
    rw [shared, of_countSinceRestart, if_neg hNil, restartInterval, if_neg (by omega)]

/-- How many restart points a block of `n` entries has. -/
def numRestarts (n : Nat) : Nat := (n - 1) / 16 + 1

theorem pos_append (es : List (Bytes × Bytes)) (e : Bytes × Bytes) (h : i ≤ es.length) :
    pos (es ++ [e]) i = pos es i := by
  rw [pos, pos, List.take_append_of_le_length h]

theorem of_restarts (es : List (Bytes × Bytes)) :
    (of es).restarts =
      (List.range (numRestarts es.length)).map fun j => asU32 (pos es (16 * j)) := by
  induction es using List.reverseRecOn with
  | nil => rfl
  | append_singleton es e ih =>
    have hOld :
        (List.range (numRestarts es.length)).map (fun j => asU32 (pos (es ++ [e]) (16 * j))) =
        (of es).restarts := by
      rw [ih]
      refine List.map_congr_left fun j hj => ?_
      have := List.mem_range.mp hj
      rw [pos_append]
      unfold numRestarts at this
      omega
    by_cases hFull : (of es).countSinceRestart < restartInterval
    · have hSame : numRestarts (es ++ [e]).length = numRestarts es.length := by
        rw [of_countSinceRestart, restartInterval] at hFull
        unfold numRestarts
        rw [List.length_append, List.length_singleton]
        split at hFull
        · next h => simp [h]
        · next h =>
          have := List.length_pos_iff.mpr h
          omega
      rw [of_append, hSame, hOld]
      simp [add, hFull]
    · have hMore : numRestarts (es ++ [e]).length = numRestarts es.length + 1 ∧
          16 * numRestarts es.length = es.length := by
        rw [of_countSinceRestart, restartInterval] at hFull
        unfold numRestarts
        rw [List.length_append, List.length_singleton]
        split at hFull
        · omega
        · next h =>
          have := List.length_pos_iff.mpr h
          omega
      rw [hMore.1, List.range_succ, List.map_append, hOld, of_append, List.map_singleton, hMore.2,
        pos_append _ _ (le_refl _), pos, List.take_length]
      simp [add, hFull]

end Layout

end BlockBuilder

namespace Block

section Parsing

variable {data buf : Bytes} {offset v : Nat} {b : Block}

theorem decode_at (h : At data offset (encodeVarint32 v)) (hv : v < 2 ^ 32) :
    ∃ buf, getFrom data offset = some buf ∧
      decodeVarint32 buf = .ok (v, (encodeVarint32 v).length) := by
  obtain ⟨post, hPost⟩ := h.getFrom
  exact ⟨_, hPost, decodeVarint32_encode hv post⟩

/-- An entry of a block: the parts that it is made of and the place where it stands. -/
structure Holds (b : Block) (offset shared : Nat) (delta value : Bytes) (next : Nat) : Prop where
  stands : At b.data offset (encodeVarint32 shared ++ (encodeVarint32 delta.length ++
    (encodeVarint32 value.length ++ (delta ++ value))))
  ends : next = offset + (encodeVarint32 shared).length + (encodeVarint32 delta.length).length +
    (encodeVarint32 value.length).length + delta.length + value.length
  small : next < 2 ^ 32
  short : shared < 2 ^ 32
  inside : next ≤ b.restartsOffset

variable {shared next : Nat} {delta value lastKey : Bytes}

theorem Holds.parseEntry (h : b.Holds offset shared delta value next)
    (hLast : shared ≤ lastKey.length) :
    b.parseEntry offset lastKey =
      some { key := lastKey.take shared ++ delta, value, nextOffset := next } := by
  obtain ⟨hAt, rfl, hSmall, hShared, hInside⟩ := h
  obtain ⟨buf1, hBuf1, hDec1⟩ := decode_at hAt.left hShared
  obtain ⟨buf2, hBuf2, hDec2⟩ := decode_at hAt.right.left (by omega)
  obtain ⟨buf3, hBuf3, hDec3⟩ := decode_at hAt.right.right.left (by omega)
  have hDelta := hAt.right.right.right.left.getRange rfl
  have hValue := hAt.right.right.right.right.getRange rfl
  simp only [Block.parseEntry, hBuf1, hDec1, hBuf2, hDec2, hBuf3, hDec3, Except.toOption,
    Option.bind_eq_bind, Option.bind_some]
  rw [checkedAdd_small (by omega), Option.bind_some, checkedAdd_small (by omega),
    Option.bind_some, checkedAdd_small (by omega),
    Option.bind_some]
  simp only [← Nat.add_assoc]
  rw [if_neg (by omega), hDelta, Option.bind_some, if_neg (by omega), hValue]
  rfl

theorem Holds.entryAt (h : b.Holds offset shared delta value next) :
    b.entryAt offset = .ok (delta, value, next) := by
  obtain ⟨hAt, rfl, hSmall, hShared, hInside⟩ := h
  obtain ⟨buf1, hBuf1, hDec1⟩ := decode_at hAt.left hShared
  obtain ⟨buf2, hBuf2, hDec2⟩ := decode_at hAt.right.left (by omega)
  obtain ⟨buf3, hBuf3, hDec3⟩ := decode_at hAt.right.right.left (by omega)
  have hDelta := hAt.right.right.right.left.getRange rfl
  have hValue := hAt.right.right.right.right.getRange rfl
  simp only [Block.entryAt, hBuf1, hDec1, hBuf2, hDec2, hBuf3, hDec3, Option.elim_some, bind,
    Except.bind]
  rw [checkedAdd_small (by omega)]
  simp only [Option.elim_some, ← Nat.add_assoc]
  rw [checkedAdd_small (by omega)]
  simp only [Option.elim_some]
  rw [checkedAdd_small (by omega)]
  simp only [Option.elim_some, hDelta, hValue]
  rfl

end Parsing

open BlockBuilder

/-- `b` is the block of the entries `es`. -/
structure Contains (b : Block) (es : List (Bytes × Bytes)) : Prop where
  data : b.data = (of es).finish
  restartsOffset : b.restartsOffset = (of es).buf.length
  numRestarts : b.numRestarts = BlockBuilder.numRestarts es.length
  small : b.data.length < 2 ^ 32

section Contains

variable {b : Block} {es : List (Bytes × Bytes)} {e : Bytes × Bytes} {i j : Nat}
  {key lastKey : Bytes}

theorem finish_length (b : BlockBuilder) :
    b.finish.length = b.buf.length + b.restarts.length * 4 + 4 := by
  have hTable : ∀ rs : List Nat, (rs.flatMap (toLeBytes 4)).length = rs.length * 4 := by
    intro rs
    induction rs with
    | nil => rfl
    | cons r rs ih =>
      rw [List.flatMap_cons, List.length_append, ih, toLeBytes_length, List.length_cons]
      omega
  rw [finish, List.length_append, List.length_append, hTable, toLeBytes_length]

theorem restarts_length (es : List (Bytes × Bytes)) :
    (of es).restarts.length = BlockBuilder.numRestarts es.length := by
  rw [of_restarts, List.length_map, List.length_range]

/-- What a builder finished is read as a block. -/
theorem new_finish (hSmall : (of es).finish.length < 2 ^ 32) :
    ∃ b, Block.new (of es).finish = .ok b ∧ b.Contains es := by
  have hLength := finish_length (of es)
  have hNum : fromLeBytes ((of es).finish.drop ((of es).finish.length - 4)) =
      BlockBuilder.numRestarts es.length := by
    have hTail : (of es).finish.length - 4 =
        ((of es).buf ++ (of es).restarts.flatMap (toLeBytes 4)).length := by
      rw [finish, List.length_append, toLeBytes_length, Nat.add_sub_cancel]
    rw [hTail, finish, List.drop_left' rfl, asU32_of_lt (by omega),
      fromLeBytes_toLeBytes_of_lt (by omega), restarts_length]
  rw [restarts_length] at hLength
  refine ⟨⟨(of es).finish, (of es).buf.length, BlockBuilder.numRestarts es.length⟩, ?_, rfl, rfl,
    rfl, hSmall⟩
  rw [Block.new, if_neg (by omega)]
  simp only [hNum]
  rw [if_neg (by omega)]
  simp only [hLength, Except.ok.injEq, Block.mk.injEq, true_and, and_true]
  omega

theorem pos_le (es : List (Bytes × Bytes)) (i : Nat) : pos es i ≤ (of es).buf.length := by
  obtain ⟨post, hPost⟩ := foldl_buf (of (es.take i)) (es.drop i)
  have hSplit : of es = (es.drop i).foldl (fun b e => b.add e.1 e.2) (of (es.take i)) := by
    rw [of, of, ← List.foldl_append, List.take_append_drop]
  rw [hSplit, hPost, pos, List.length_append]
  omega

theorem shared_le (b : BlockBuilder) (key : Bytes) : b.shared key ≤ key.length ∧
    b.shared key ≤ b.lastKey.length ∧ b.lastKey.take (b.shared key) = key.take (b.shared key) := by
  unfold shared
  split
  · obtain ⟨hLast, hKey, hTake⟩ := commonPrefixLen_spec b.lastKey key
    exact ⟨hKey, hLast, hTake⟩
  · simp

/-- A key is no longer than the block up to its entry. -/
theorem key_le_pos (h : es[i]? = some e) : e.1.length ≤ pos es (i + 1) := by
  induction i generalizing e with
  | zero =>
    have hShared : (of (es.take 0)).shared e.1 = 0 := shared_eq_zero (es.take 0) e.1 (by simp)
    rw [pos_succ h, entryBytes, hShared]
    simp only [List.length_append, List.drop_zero]
    omega
  | succ i ih =>
    obtain ⟨hi, -⟩ := List.getElem?_eq_some_iff.mp h
    have hPrev := List.getElem?_eq_getElem (show i < es.length by omega)
    obtain ⟨-, hLast, -⟩ := shared_le (of (es.take (i + 1))) e.1
    rw [of_lastKey hPrev] at hLast
    have := ih hPrev
    rw [pos_succ h, entryBytes]
    simp only [List.length_append, List.length_drop]
    omega

theorem Contains.holds (h : b.Contains es) (he : es[i]? = some e) :
    b.Holds (pos es i) ((of (es.take i)).shared e.1) (e.1.drop ((of (es.take i)).shared e.1)) e.2
      (pos es (i + 1)) := by
  have hInside : pos es (i + 1) ≤ b.restartsOffset := h.restartsOffset ▸ pos_le es (i + 1)
  have hSmall : pos es (i + 1) < 2 ^ 32 := by
    have := h.small
    rw [h.data, finish_length] at this
    have := pos_le es (i + 1)
    omega
  have hKey := key_le_pos he
  obtain ⟨hShared, -⟩ := shared_le (of (es.take i)) e.1
  have hPos := pos_succ he
  have hValue : e.2.length ≤ pos es (i + 1) := by
    rw [hPos, entryBytes]
    simp only [List.length_append]
    omega
  have hBytes : (of (es.take i)).entryBytes e.1 e.2 =
      encodeVarint32 ((of (es.take i)).shared e.1) ++
        (encodeVarint32 (e.1.drop ((of (es.take i)).shared e.1)).length ++
          (encodeVarint32 e.2.length ++ (e.1.drop ((of (es.take i)).shared e.1) ++ e.2))) := by
    rw [entryBytes, asU32_of_lt (by omega), asU32_of_lt (by omega), asU32_of_lt (by omega),
      List.length_drop]
  refine ⟨?_, ?_, hSmall, by omega, hInside⟩
  · rw [← hBytes, h.data, finish, List.append_assoc]
    simpa using (at_zero (of es).buf _).trans (at_pos he)
  · rw [hPos, hBytes]
    simp only [List.length_append]
    omega

/-- An entry is parsed after the key before it, and after any key where it stands whole. -/
theorem Contains.parseEntry (h : b.Contains es) (he : es[i]? = some e)
    (hLast : i % 16 = 0 ∨ lastKey = (of (es.take i)).lastKey) :
    b.parseEntry (pos es i) lastKey =
      some { key := e.1, value := e.2, nextOffset := pos es (i + 1) } := by
  obtain ⟨hi, -⟩ := List.getElem?_eq_some_iff.mp he
  obtain ⟨-, hShared, hTake⟩ := shared_le (of (es.take i)) e.1
  rcases hLast with hWhole | rfl
  · have hZero : (of (es.take i)).shared e.1 = 0 :=
      shared_eq_zero _ _ (by rw [List.length_take, Nat.min_eq_left hi.le, hWhole])
    have hHolds := h.holds he
    rw [hZero] at hHolds
    rw [hHolds.parseEntry (Nat.zero_le _)]
    rfl
  · rw [(h.holds he).parseEntry hShared, hTake, List.take_append_drop]

theorem Contains.isPastEntries (h : b.Contains es) (he : es[i]? = some e) :
    b.isPastEntries (pos es (i + 1)) = decide (es.length ≤ i + 1) := by
  obtain ⟨hi, -⟩ := List.getElem?_eq_some_iff.mp he
  rw [Block.isPastEntries, decide_eq_decide, h.restartsOffset]
  constructor
  · intro hPast
    by_contra hMore
    have hNext := List.getElem?_eq_getElem (show i + 1 < es.length by omega)
    have := pos_lt hNext
    have := pos_le es (i + 1 + 1)
    omega
  · intro hEnd
    rw [pos, List.take_of_length_le hEnd]

theorem Contains.iterFrom (h : b.Contains es) (hi : i ≤ es.length) :
    b.iterFrom (pos es i) (of (es.take i)).lastKey = es.drop i := by
  induction hn : es.length - i generalizing i with
  | zero =>
    have hEnd : i = es.length := by omega
    subst hEnd
    rw [Block.iterFrom, dif_pos, List.drop_length]
    rw [Block.isPastEntries, h.restartsOffset, pos, List.take_length]
    exact decide_eq_true (le_refl _)
  | succ n ih =>
    have he := List.getElem?_eq_getElem (show i < es.length by omega)
    have hNotPast : ¬b.isPastEntries (pos es i) = true := by
      rw [Block.isPastEntries, decide_eq_true_eq, h.restartsOffset]
      have := pos_lt he
      have := pos_le es (i + 1)
      omega
    rw [Block.iterFrom, dif_neg hNotPast, h.parseEntry he (.inr rfl)]
    simp only
    rw [← of_lastKey he, ih (by omega) (by omega), of_lastKey he, ← List.drop_eq_getElem_cons]

/-- The entries of a block are read back. -/
theorem Contains.iter (h : b.Contains es) : b.iter = es := by
  have := h.iterFrom (Nat.zero_le _)
  rwa [List.drop_zero] at this

/-- The first whole key of a block without entries is an empty one, and nothing is parsed. -/
theorem Contains.nil (h : b.Contains []) (lastKey : Bytes) (i : Nat) (hi : i < b.numRestarts) :
    b.restartOffset i = 0 ∧ b.restartingKeyAt i = some [] ∧ b.parseEntry 0 lastKey = none := by
  obtain ⟨data, off, num⟩ := b
  obtain ⟨rfl, rfl, rfl, -⟩ := h
  have hZero : i = 0 := Nat.lt_one_iff.mp hi
  subst hZero
  exact ⟨rfl, rfl, rfl⟩

theorem Contains.restartOffset (h : b.Contains es) (hj : j < BlockBuilder.numRestarts es.length) :
    b.restartOffset j = pos es (16 * j) := by
  have hGet : (of es).restarts[j]? = some (asU32 (pos es (16 * j))) := by
    rw [of_restarts, List.getElem?_map, List.getElem?_range hj]
    rfl
  have hAt := at_flatMap (f := toLeBytes 4) (toLeBytes_length 4) hGet
  replace hAt := (at_append (of es).buf _ (toLeBytes 4 (asU32 (of es).restarts.length))).trans hAt
  have hSmall := h.small
  rw [h.data, finish_length] at hSmall
  have := pos_le es (16 * j)
  rw [Block.restartOffset, h.data, h.restartsOffset, finish,
    hAt.take_drop (toLeBytes_length _ _), fromLeBytes_toLeBytes_of_lt (asU32_lt _),
    asU32_of_lt (by omega)]

theorem Contains.entryAt (h : b.Contains es) (hj : j < BlockBuilder.numRestarts es.length)
    (he : es[16 * j]? = some e) :
    b.entryAt (b.restartOffset j) = .ok (e.1, e.2, pos es (16 * j + 1)) := by
  obtain ⟨hi, -⟩ := List.getElem?_eq_some_iff.mp he
  have hZero : (of (es.take (16 * j))).shared e.1 = 0 :=
    shared_eq_zero _ _ (by rw [List.length_take, Nat.min_eq_left hi.le, Nat.mul_mod_right])
  have hHolds := h.holds he
  rw [hZero] at hHolds
  rw [h.restartOffset hj, hHolds.entryAt, List.drop_zero]

theorem Contains.restartingKeyAt (h : b.Contains es)
    (hj : j < BlockBuilder.numRestarts es.length) (he : es[16 * j]? = some e) :
    b.restartingKeyAt j = some e.1 := by
  rw [Block.restartingKeyAt, h.entryAt hj he]
  rfl

/-- The scan from a whole key finds the first entry from there on that does not come before. -/
theorem Contains.scan {before : Bytes → Bool} (h : b.Contains es) (hi : i < es.length)
    (hLast : i % 16 = 0 ∨ lastKey = (of (es.take i)).lastKey) :
    (b.scan before (pos es i) lastKey).map (fun e => (e.key, e.value)) =
      (es.drop i).find? fun e => !before e.1 := by
  induction hn : es.length - i generalizing i lastKey with
  | zero => omega
  | succ n ih =>
    have he := List.getElem?_eq_getElem hi
    rw [Block.scan, h.parseEntry he hLast, List.drop_eq_getElem_cons hi]
    cases hBefore : before es[i].1 with
    | false =>
      rw [List.find?_cons_of_pos (by rw [hBefore, Bool.not_false])]
      simp [hBefore]
    | true =>
      simp only [hBefore, if_true, List.find?_cons, Bool.not_true, h.isPastEntries he,
        decide_eq_true_eq]
      split
      · next hEnd => simp [List.drop_eq_nil_of_le hEnd]
      · next hMore => exact ih (by omega) (.inr (of_lastKey he).symm) (by omega)

theorem find?_drop {α : Type} {p : α → Bool} {xs : List α} (h : ∀ x ∈ xs.take i, p x = false) :
    (xs.drop i).find? p = xs.find? p := by
  conv_rhs => rw [← List.take_append_drop i xs, List.find?_append,
    List.find?_eq_none.mpr fun x hx => by simp [h x hx]]
  rfl

section Search

variable {target : Bytes} {cmp : Bytes → Bytes → Ordering} {before : Bytes → Bool}

/-- The scan from the restart point in front of the first that does not come before. -/
theorem Contains.scanRestart {n : Nat} (h : b.Contains es) (hNil : es ≠ []) (before : Bytes → Bool)
    (hPart : Search.Partitioned (fun e : Bytes × Bytes => before e.1) es n) (hn : n ≤ es.length)
    (hj : j = (n + 15) / 16 - 1) :
    ∃ key, b.restartingKeyAt j = some key ∧
      (b.scan before (b.restartOffset j) key).map (fun e => (e.key, e.value)) =
        es.find? fun e => !before e.1 := by
  have hPos := List.length_pos_iff.mpr hNil
  have hi : 16 * j < es.length := by omega
  have hRestart : j < BlockBuilder.numRestarts es.length := by
    unfold BlockBuilder.numRestarts
    omega
  have he := List.getElem?_eq_getElem hi
  refine ⟨_, h.restartingKeyAt hRestart he, ?_⟩
  rw [h.restartOffset hRestart, h.scan hi (.inl (Nat.mul_mod_right _ _)), find?_drop]
  intro e hmem
  obtain ⟨k, hk, rfl⟩ := List.mem_take_iff_getElem.mp hmem
  have := (hPart k (by omega)).mpr (by omega)
  simpa using this

/-- A search in a block finds what a search in its entries finds. -/
theorem Contains.lowerBoundEntry (h : b.Contains es)
    (hOrd : es.Pairwise fun x y => cmp target y.1 = .gt → cmp target x.1 = .gt) :
    (b.lowerBoundEntry target cmp).map (fun e => (e.key, e.value)) =
      es.find? fun e => !(cmp target e.1 == .gt) := by
  by_cases hNil : es = []
  · subst hNil
    obtain ⟨lo, hLo, hle⟩ := Search.bisect_isSome
      (fun mid => (b.restartingKeyAt mid).map fun key => cmp target key == .gt)
      (fun i hi => by simp [(h.nil [] i hi).2.1]) (Nat.zero_le b.numRestarts)
    have hNum : b.numRestarts = 1 := h.numRestarts
    obtain ⟨hOff, hKey, hParse⟩ := h.nil [] 0 (by omega)
    have hStart : min (lo - 1) (b.numRestarts - 1) = 0 := by omega
    rw [Block.lowerBoundEntry, hLo]
    simp only [Option.bind_eq_bind, Option.bind_some, hStart, hKey, hOff]
    rw [Block.scan, hParse]
    rfl
  · have hPart := Search.partitioned_takeWhile
      (p := fun e : Bytes × Bytes => cmp target e.1 == .gt) (hOrd.imp fun h => by
        simpa using h)
    have hle := List.IsPrefix.length_le (List.takeWhile_prefix
      (fun e : Bytes × Bytes => cmp target e.1 == .gt) (l := es))
    generalize (es.takeWhile fun e => cmp target e.1 == .gt).length = n at hPart hle
    have hPos := List.length_pos_iff.mpr hNil
    have hBefore : ∀ i < b.numRestarts,
        ((b.restartingKeyAt i).map fun key => cmp target key == .gt) =
          some (decide (i < (n + 15) / 16)) := by
      intro i hi
      have hi' : 16 * i < es.length := by
        rw [h.numRestarts, BlockBuilder.numRestarts] at hi
        omega
      have he := List.getElem?_eq_getElem hi'
      rw [h.restartingKeyAt (h.numRestarts ▸ hi) he, Option.map_some, Option.some.injEq,
        Bool.eq_iff_iff, decide_eq_true_eq]
      rw [hPart _ hi']
      omega
    have hFind := Search.bisect_eq _ hBefore (Nat.zero_le _) (by
      rw [h.numRestarts, BlockBuilder.numRestarts]
      omega)
    have hStart : min ((n + 15) / 16 - 1) (b.numRestarts - 1) = (n + 15) / 16 - 1 := by
      rw [h.numRestarts, BlockBuilder.numRestarts]
      omega
    obtain ⟨key, hKey, hScan⟩ := h.scanRestart hNil
      (fun key => cmp target key == .gt) hPart hle rfl
    rw [Block.lowerBoundEntry, hFind]
    simp only [Option.bind_eq_bind, Option.bind_some, hStart, hKey]
    exact hScan

theorem Contains.getLoop {n lo hi : Nat} (h : b.Contains es)
    (hPart : Search.Partitioned (fun e : Bytes × Bytes => cmp target e.1 == .gt) es n)
    (hLow : lo ≤ (n + 15) / 16) (hHigh : (n + 15) / 16 ≤ hi) (hNum : hi ≤ b.numRestarts)
    (hPos : 0 < es.length)
    (hTop : hi = b.numRestarts ∨ ∃ e, es[16 * hi]? = some e ∧ cmp target e.1 = .lt) :
    (∃ mid e, b.getLoop target cmp lo hi = some (.inl mid) ∧ mid < b.numRestarts ∧
      es[16 * mid]? = some e ∧ cmp target e.1 = .eq) ∨
    b.getLoop target cmp lo hi = some (.inr ((n + 15) / 16)) ∧ ((n + 15) / 16 = b.numRestarts ∨
      ∃ e, es[16 * ((n + 15) / 16)]? = some e ∧ cmp target e.1 = .lt) := by
  induction hn : hi - lo using Nat.strongRecOn generalizing lo hi with
  | _ k ih =>
    subst hn
    rw [Block.getLoop]
    by_cases hlt : lo < hi
    · have hi' : 16 * ((lo + hi) / 2) < es.length := by
        rw [h.numRestarts, BlockBuilder.numRestarts] at hNum
        omega
      have he := List.getElem?_eq_getElem hi'
      have hMid : (lo + hi) / 2 < BlockBuilder.numRestarts es.length := by
        rw [← h.numRestarts]
        omega
      have hGt := hPart _ hi'
      rw [if_pos hlt]
      simp only [h.restartingKeyAt hMid he]
      cases hCmp : cmp target es[16 * ((lo + hi) / 2)].1 with
      | lt =>
        simp only [hCmp, show (Ordering.lt == Ordering.gt) = false from rfl, Bool.false_eq_true,
          false_iff, not_lt] at hGt
        exact ih _ (by omega) hLow (by omega) (by omega) (.inr ⟨_, he, hCmp⟩) rfl
      | eq => exact .inl ⟨_, _, rfl, h.numRestarts ▸ hMid, he, hCmp⟩
      | gt =>
        simp only [hCmp, BEq.rfl, true_iff] at hGt
        exact ih _ (by omega) (by omega) hHigh hNum hTop rfl
    · have hEnd : hi = (n + 15) / 16 := by omega
      rw [if_neg hlt]
      exact .inr ⟨by rw [show lo = (n + 15) / 16 by omega], hEnd ▸ hTop⟩

/-- In order, an equal key is the first that does not come before. -/
theorem find?_eq_filter
    (hOrd : es.Pairwise fun x y => cmp target y.1 ≠ .lt → cmp target x.1 = .gt) :
    (es.find? fun e => cmp target e.1 == .eq) =
      (es.find? fun e => !(cmp target e.1 == .gt)).filter fun e => cmp target e.1 == .eq := by
  induction es with
  | nil => rfl
  | cons x xs ih =>
    obtain ⟨hx, hxs⟩ := List.pairwise_cons.mp hOrd
    cases hCmp : cmp target x.1 with
    | gt => simpa [hCmp] using ih hxs
    | eq => simp [Option.filter, hCmp]
    | lt =>
      have hNone : ∀ y ∈ xs, ¬(cmp target y.1 == .eq) = true := by
        intro y hy hEq
        have := hx y hy (by simp [beq_iff_eq.mp hEq])
        simp [hCmp] at this
      simp [Option.filter, hCmp, List.find?_eq_none.mpr hNone]

/-- `get` finds the value of a key in a block that has entries. -/
theorem Contains.get (h : b.Contains es) (hNil : es ≠ [])
    (hOrd : es.Pairwise fun x y => cmp target y.1 ≠ .lt → cmp target x.1 = .gt) :
    b.get target cmp = (es.find? fun e => cmp target e.1 == .eq).map (·.2) := by
  have hPos := List.length_pos_iff.mpr hNil
  have hPart := Search.partitioned_takeWhile
    (p := fun e : Bytes × Bytes => cmp target e.1 == .gt) (hOrd.imp fun h hGt => by
      simp only [beq_iff_eq] at hGt ⊢
      exact h (by simp [hGt]))
  have hle := List.IsPrefix.length_le (List.takeWhile_prefix
    (fun e : Bytes × Bytes => cmp target e.1 == .gt) (l := es))
  have hFilter := find?_eq_filter hOrd
  generalize (es.takeWhile fun e => cmp target e.1 == .gt).length = n at hPart hle
  have hNum : b.numRestarts = (es.length - 1) / 16 + 1 := h.numRestarts
  obtain ⟨mid, e, hLoop, hMid, he, hCmp⟩ | ⟨hLoop, hTop⟩ :=
    h.getLoop hPart (Nat.zero_le _) (by omega) (le_refl _) hPos (.inl rfl)
  · have hFind : (es.find? fun e => cmp target e.1 == .eq) = some e := by
      refine List.find?_eq_some_iff_append.mpr ⟨by simp [hCmp], es.take (16 * mid),
        es.drop (16 * mid + 1), ?_, ?_⟩
      · obtain ⟨hi, rfl⟩ := List.getElem?_eq_some_iff.mp he
        rw [← List.drop_eq_getElem_cons hi, List.take_append_drop]
      · intro x hx
        obtain ⟨hi, rfl⟩ := List.getElem?_eq_some_iff.mp he
        obtain ⟨k, hk, rfl⟩ := List.mem_take_iff_getElem.mp hx
        have := List.pairwise_iff_getElem.mp hOrd k (16 * mid) (by omega) hi (by omega)
        simp [this (by simp [hCmp])]
    rw [Block.get, hLoop, hFind]
    simp only [Option.bind_eq_bind, Option.bind_some, Block.valueAtRestart,
      h.entryAt (h.numRestarts ▸ hMid) he]
    rfl
  · rw [Block.get, hLoop, hFilter]
    simp only [Option.bind_eq_bind, Option.bind_some]
    split
    · next hZero =>
      obtain ⟨e, he, hCmp⟩ := hTop.resolve_left (by omega)
      rw [hZero, Nat.mul_zero] at he
      have hFirst : (es.find? fun e => !(cmp target e.1 == .gt)) = some e := by
        cases es with
        | nil => contradiction
        | cons x xs =>
          obtain rfl : x = e := by simpa using he
          simp [hCmp]
      simp [hFirst, Option.filter, hCmp]
    · next hMore =>
      obtain ⟨key, hKey, hScan⟩ := h.scanRestart hNil
        (fun key => cmp target key == .gt) hPart hle rfl
      rw [hKey, Option.bind_some, ← hScan]
      cases b.scan (fun key => cmp target key == .gt) (b.restartOffset ((n + 15) / 16 - 1)) key with
      | none => rfl
      | some entry =>
        by_cases hCmp : cmp target entry.key = .eq <;> simp [hCmp, Option.filter]

end Search

end Contains

end Block

end MulanLsm
