import MulanLsm.Sstable

/-! What a table's readers make of an entry that does not parse.  A search of a block ends at an
entry, behind the last one, or at bytes that are no entry; an iteration ends behind the last entry
or at such bytes.  The readers take the last two of these for one, so damage to a block can hide
the entries behind it. -/

namespace MulanLsm

open Slice

namespace Block

/-- From `offset` on, after the key `lastKey`, the entries `es` parse one after another, and the
last one ends at the restart points. -/
inductive Lists (b : Block) : Nat → Bytes → List (Bytes × Bytes) → Prop
  | done {offset lastKey} (hPast : b.isPastEntries offset = true) : Lists b offset lastKey []
  | next {offset lastKey entry es} (hBefore : b.isPastEntries offset = false)
      (hEntry : b.parseEntry offset lastKey = some entry)
      (hRest : Lists b entry.nextOffset entry.key es) :
      Lists b offset lastKey ((entry.key, entry.value) :: es)

/-- Where a search ends: at an entry, behind the last one, or at bytes that are no entry. -/
inductive SearchEnd
  | found (entry : ParsedEntry)
  | absent
  | malformed

namespace SearchEnd

/-- The entry that was found. -/
def entry : SearchEnd → Option ParsedEntry
  | found entry => some entry
  | absent => none
  | malformed => none

end SearchEnd

section Searching

variable {b : Block} {before : Bytes → Bool} {offset : Nat} {lastKey target : Bytes}
  {cmp : Bytes → Bytes → Ordering}

/-- An iteration gives the entries that are listed. -/
theorem Lists.iterFrom {es : List (Bytes × Bytes)} (h : b.Lists offset lastKey es) :
    b.iterFrom offset lastKey = es := by
  induction h with
  | done hPast => rw [Block.iterFrom, dif_pos hPast]
  | next hBefore hEntry hRest ih =>
    rw [Block.iterFrom, dif_neg (by simp [hBefore])]
    split
    · next hNone => simp [hEntry] at hNone
    · next entry' hEntry' =>
      obtain rfl := Option.some.inj (hEntry.symm.trans hEntry')
      rw [ih]

end Searching

end Block

namespace Sstable

open Block (SearchEnd)

section Surfacing

variable {r : TableReader} {index : Block} {it : TableIter} {userKey : Bytes} {seq : Nat}

end Surfacing

end Sstable

end MulanLsm
