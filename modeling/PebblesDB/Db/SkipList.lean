import Mathlib
import PebblesDB.Lib.LinkedList

/-!
# The skip list of the memtable

PebblesDB's skip list (`db/skiplist.h`) differs from LevelDB's in its links: beside the pointer,
every link carries a hint, the extractor's value of the node it points to (`UINT64_MAX` for a
null link). `FindGreaterOrEqual` reads the hints first. It drops a level at once when the hint
is above the key's value and moves along a link when the hint is below it; only on equal hints
does it call the comparator. It also records, per level, the node it left the level from
(`prev`) and the link it saw there (`obs`), a null observation where it dropped a level early.
`Insert` links the new node level by level with a compare-and-swap on `prev[i]`'s link; the
swap fails when the observation was wrong, and is retried after re-reading the link.

The model follows the code on an arena of nodes: `head_` is node `0` and a pointer is an index
into the arena. Writes are single-threaded, as `Insert` requires, so a compare-and-swap fails
only on a stale observation. `RandomHeight` draws from `Random`, modelled as it computes. The
code's `while (true)` loops run here on fuel; `PebblesDB.Db.SkipListInsert` shows that the fuel
given is enough.

The keys are compared through `ikey` into a linear order: the comparator of the code is
`compare (ikey a) (ikey b)`. For a comparator that is a total order on the keys themselves,
`ikey` is the identity; the memtable compares entries by their internal keys only.
-/

namespace PebblesDB.Db

namespace SkipList

/-! ## Nodes and links -/

/-- `kMaxHeight`. -/
def kMaxHeight : ℕ := 17

/-- `UINT64_MAX`, the hint of a null link. -/
def uint64Max : UInt64 := 18446744073709551615

theorem uint64Max_le (c : UInt64) : c ≤ uint64Max := by
  rw [UInt64.le_iff_toNat_le]
  exact Nat.le_pred_of_lt c.toNat_lt

/-- `Node::PointerHintPair`: a link and the hint cached with it. -/
structure Link where
  /-- The extractor's value of the node linked to, `UINT64_MAX` for none. -/
  cmp : UInt64
  /-- The node linked to, `NULL` as `none`. -/
  next : Option ℕ
  deriving DecidableEq, Repr

/-- A null link, as `NewNode` leaves every link of a new node. -/
def Link.null : Link := ⟨uint64Max, none⟩

/-- `SkipList::Node`: the extractor's value of its key, the key, and its links, one per level of
its height. -/
structure Node (κ : Type) where
  /-- `cmp`. -/
  cmp : UInt64
  /-- `key`. -/
  key : κ
  /-- `ptrs_`. -/
  ptrs : List Link
  deriving Repr

/-! ## `Random` -/

/-- `Random::Random(s)`: the seed is kept to 31 bits, with `0` and `2^31 - 1` replaced. -/
def randomInit (s : ℕ) : ℕ :=
  let seed := s % 2 ^ 31
  if seed = 0 ∨ seed = 2147483647 then 1 else seed

/-- `Random::Next`: `seed * 16807 mod (2^31 - 1)`, computed with a shift and a mask. -/
def randomNext (seed : ℕ) : ℕ :=
  let product := seed * 16807
  -- `(product >> 31) + (product & M)` fits in 32 bits: no truncation
  let seed := product / 2 ^ 31 + product % 2 ^ 31
  if seed > 2147483647 then seed - 2147483647 else seed

/-- The loop of `RandomHeight`: grow while below `kMaxHeight` and the next number is divisible
by `kBranching = 4`. The next number is drawn only below `kMaxHeight`. -/
def randomHeightLoop : ℕ → ℕ → ℕ → ℕ × ℕ
  | 0, height, seed => (height, seed)
  | fuel + 1, height, seed =>
    if height < kMaxHeight then
      let seed := randomNext seed
      if seed % 4 = 0 then randomHeightLoop fuel (height + 1) seed else (height, seed)
    else (height, seed)

/-- `RandomHeight`: the height, and the seed `rnd_` is left with. The loop stops within
`kMaxHeight` rounds. -/
def randomHeight (seed : ℕ) : ℕ × ℕ :=
  randomHeightLoop kMaxHeight 1 seed

theorem randomHeightLoop_bounds : ∀ fuel height seed, 1 ≤ height → height ≤ kMaxHeight →
    1 ≤ (randomHeightLoop fuel height seed).1 ∧
      (randomHeightLoop fuel height seed).1 ≤ kMaxHeight := by
  intro fuel
  induction fuel with
  | zero => intro height seed h1 h2; exact ⟨h1, h2⟩
  | succ fuel ih =>
    intro height seed h1 h2
    rw [randomHeightLoop]
    split
    · next hlt =>
      dsimp only
      split
      · exact ih _ _ (Nat.le_succ_of_le h1) hlt
      · exact ⟨h1, h2⟩
    · exact ⟨h1, h2⟩

/-- `RandomHeight` draws a height between `1` and `kMaxHeight`, as its `assert`s say. -/
theorem randomHeight_bounds (seed : ℕ) :
    1 ≤ (randomHeight seed).1 ∧ (randomHeight seed).1 ≤ kMaxHeight :=
  randomHeightLoop_bounds _ _ _ (Nat.le_refl 1) (by decide)

end SkipList

/-! ## The list -/

/-- A skip list: its arena of nodes, `head_` being node `0`, and the seed of `rnd_`. -/
structure SkipList (κ : Type) where
  /-- The nodes, by their place in the arena. -/
  nodes : List (SkipList.Node κ)
  /-- The seed of `rnd_`. -/
  rnd : ℕ

namespace SkipList

variable {κ : Type}

/-- The link of node `x` at `level`; a link past the node's height reads as null. -/
def link (s : SkipList κ) (x level : ℕ) : Link :=
  ((s.nodes[x]?).bind fun n ↦ n.ptrs[level]?).getD .null

/-- Where node `x` links to at `level`. -/
def next (s : SkipList κ) (level x : ℕ) : Option ℕ :=
  (s.link x level).next

/-- The number of levels of node `x`. -/
def height (s : SkipList κ) (x : ℕ) : ℕ :=
  ((s.nodes[x]?).map (·.ptrs.length)).getD 0

/-- The extractor's value stored in node `x`. -/
def cmpAt (s : SkipList κ) (x : ℕ) : UInt64 :=
  ((s.nodes[x]?).map (·.cmp)).getD uint64Max

/-- The key of node `x`. -/
def keyAt [Inhabited κ] (s : SkipList κ) (x : ℕ) : κ :=
  ((s.nodes[x]?).map (·.key)).getD default

/-- `n ? n->cmp : UINT64_MAX`. -/
def cmpOf (s : SkipList κ) (n : Option ℕ) : UInt64 :=
  (n.map s.cmpAt).getD uint64Max

/-- `SetNext` and the stores of `CasNext`: overwrite the link of node `x` at `level`. -/
def setLink (s : SkipList κ) (x level : ℕ) (l : Link) : SkipList κ :=
  { s with nodes := s.nodes.modify x fun n ↦ { n with ptrs := n.ptrs.set level l } }

/-! ### Writes and allocation, field by field -/

theorem link_setLink (s : SkipList κ) (x level : ℕ) (l : Link) (y ℓ : ℕ) :
    (s.setLink x level l).link y ℓ =
      if y = x ∧ ℓ = level ∧ level < s.height x then l else s.link y ℓ := by
  unfold link setLink height
  rw [List.getElem?_modify]
  by_cases hy : x = y
  · subst hy
    cases hn : s.nodes[x]? with
    | none => simp
    | some n =>
      by_cases hℓ : level = ℓ
      · subst hℓ
        by_cases hlt : level < n.ptrs.length <;> simp [hlt]
      · simp [hℓ, Ne.symm hℓ]
  · simp [hy, Ne.symm hy]

theorem setLink_setLink (s : SkipList κ) (x level : ℕ) (l₁ l₂ : Link) :
    (s.setLink x level l₁).setLink x level l₂ = s.setLink x level l₂ := by
  simp only [setLink, List.modify_modify_eq]
  congr 2
  funext n
  simp

@[simp] theorem height_setLink (s : SkipList κ) (x level : ℕ) (l : Link) (y : ℕ) :
    (s.setLink x level l).height y = s.height y := by
  unfold height setLink
  rw [List.getElem?_modify]
  by_cases hy : x = y <;> cases s.nodes[y]? <;> simp [hy]

@[simp] theorem cmpAt_setLink (s : SkipList κ) (x level : ℕ) (l : Link) (y : ℕ) :
    (s.setLink x level l).cmpAt y = s.cmpAt y := by
  unfold cmpAt setLink
  rw [List.getElem?_modify]
  by_cases hy : x = y <;> cases s.nodes[y]? <;> simp [hy]

@[simp] theorem keyAt_setLink [Inhabited κ] (s : SkipList κ) (x level : ℕ) (l : Link) (y : ℕ) :
    (s.setLink x level l).keyAt y = s.keyAt y := by
  unfold keyAt setLink
  rw [List.getElem?_modify]
  by_cases hy : x = y <;> cases s.nodes[y]? <;> simp [hy]

@[simp] theorem length_setLink (s : SkipList κ) (x level : ℕ) (l : Link) :
    (s.setLink x level l).nodes.length = s.nodes.length := by
  simp [setLink]

@[simp] theorem cmpOf_setLink (s : SkipList κ) (x level : ℕ) (l : Link) (n : Option ℕ) :
    (s.setLink x level l).cmpOf n = s.cmpOf n := by
  cases n <;> simp [cmpOf]

@[simp] theorem cmpOf_none (s : SkipList κ) : s.cmpOf none = uint64Max := rfl

@[simp] theorem cmpOf_some (s : SkipList κ) (n : ℕ) : s.cmpOf (some n) = s.cmpAt n := rfl

theorem link_append (s : SkipList κ) (node : Node κ) (r : ℕ) {y : ℕ} (hy : y < s.nodes.length)
    (ℓ : ℕ) : (SkipList.mk (s.nodes ++ [node]) r).link y ℓ = s.link y ℓ := by
  simp [link, List.getElem?_append_left hy]

theorem height_append (s : SkipList κ) (node : Node κ) (r : ℕ) {y : ℕ} (hy : y < s.nodes.length) :
    (SkipList.mk (s.nodes ++ [node]) r).height y = s.height y := by
  simp [height, List.getElem?_append_left hy]

theorem cmpAt_append (s : SkipList κ) (node : Node κ) (r : ℕ) {y : ℕ} (hy : y < s.nodes.length) :
    (SkipList.mk (s.nodes ++ [node]) r).cmpAt y = s.cmpAt y := by
  simp [cmpAt, List.getElem?_append_left hy]

theorem keyAt_append [Inhabited κ] (s : SkipList κ) (node : Node κ) (r : ℕ) {y : ℕ}
    (hy : y < s.nodes.length) : (SkipList.mk (s.nodes ++ [node]) r).keyAt y = s.keyAt y := by
  simp [keyAt, List.getElem?_append_left hy]

section Comparator

variable [Inhabited κ] {ι : Type} [LinearOrder ι] (ikey : κ → ι) (ext : κ → UInt64)

/-- `NewNode(key, height)`: the key's extractor value and `height` null links. -/
def newNode (key : κ) (height : ℕ) : Node κ :=
  ⟨ext key, key, List.replicate height .null⟩

/-- `SkipList(cmp, ext, arena)`: `head_` is a node of `kMaxHeight` null links over a key that is
never compared ("any key will do"), and `rnd_` is seeded with `0xdeadbeef`. -/
def create : SkipList κ :=
  ⟨[newNode ext default kMaxHeight], randomInit 0xdeadbeef⟩

/-- `KeyIsAfterNode(key, n)`: `n` is not null and its key is below `key`. -/
def keyIsAfterNode (s : SkipList κ) (key : κ) : Option ℕ → Bool
  | none => false
  | some n => decide (ikey (s.keyAt n) < ikey key)

/-! ## `FindGreaterOrEqual` -/

/-- The arrays `prev` and `obs` that `FindGreaterOrEqual` fills in, one entry per level. -/
structure Trail where
  /-- `prev[level]`: the node the search left the level from. -/
  prev : ℕ → ℕ
  /-- `obs[level]`: where that node's link pointed, or null where the search dropped the level
  early on a hint. -/
  obs : ℕ → Option ℕ

/-- The trail before the search: never read before it is written. -/
def Trail.empty : Trail :=
  ⟨fun _ ↦ 0, fun _ ↦ none⟩

/-- Record the node a level was left from and the link seen there. -/
def Trail.record (t : Trail) (level x : ℕ) (obs : Option ℕ) : Trail :=
  ⟨Function.update t.prev level x, Function.update t.obs level obs⟩

@[simp] theorem Trail.record_prev (t : Trail) (level x : ℕ) (obs : Option ℕ) (ℓ : ℕ) :
    (t.record level x obs).prev ℓ = if ℓ = level then x else t.prev ℓ :=
  Function.update_apply _ _ _ _

@[simp] theorem Trail.record_obs (t : Trail) (level x : ℕ) (obs : Option ℕ) (ℓ : ℕ) :
    (t.record level x obs).obs ℓ = if ℓ = level then obs else t.obs ℓ :=
  Function.update_apply _ _ _ _

/-- The inner loop `while (level > 0 && x->NoBarrier_Cmp(level) > cmp)`: drop every level whose
hint at `x` is above the key's value, with a null observation. -/
def dropLevels (s : SkipList κ) (cmp : UInt64) (x : ℕ) : ℕ → Trail → ℕ × Trail
  | 0, t => (0, t)
  | level + 1, t =>
    if cmp < (s.link x (level + 1)).cmp then
      dropLevels s cmp x level (t.record (level + 1) x none)
    else (level + 1, t)

/-- The outer loop of `FindGreaterOrEqual` from node `x` at `level`: move along the link while
its hint is below the key's value or its node is below the key, else record the level and go
down, returning the link of level `0`. Moving to a null link would dereference it: `none`. -/
def findLoop (s : SkipList κ) (key : κ) (cmp : UInt64) :
    ℕ → ℕ → ℕ → Trail → Option (Option ℕ × Trail)
  | 0, _, _, _ => none
  | fuel + 1, x, level, t =>
    match dropLevels s cmp x level t with
    | (level, t) =>
      let l := s.link x level
      if l.cmp < cmp || keyIsAfterNode ikey s key l.next then
        match l.next with
        | some n => findLoop s key cmp fuel n level t
        | none => none
      else
        let t := t.record level x l.next
        if level = 0 then some (l.next, t)
        else findLoop s key cmp fuel x (level - 1) t

/-- `FindGreaterOrEqual(key, prev, obs)`: the first node at or after `key`, and the trail. The
search moves along at most every node and drops at most every level. -/
def findGreaterOrEqual (s : SkipList κ) (key : κ) : Option (Option ℕ × Trail) :=
  findLoop ikey s key (ext key) (s.nodes.length + kMaxHeight) 0 (kMaxHeight - 1) .empty

/-! ## `Insert` -/

/-- The loop of `CasNext` on the hint, `while (expected > new_cmp) expected =
compare_and_swap(&cmp, expected, new_cmp)`, run alone: each round swaps in `new_cmp` if the hint
is `expected`, and goes on with the hint it found. -/
def casCmp (newCmp : UInt64) : ℕ → UInt64 → UInt64 → UInt64
  | 0, _, cur => cur
  | fuel + 1, expected, cur =>
    if newCmp < expected then casCmp newCmp fuel cur (if cur = expected then newCmp else cur)
    else cur

/-- The hint loop of `CasNext` lowers the hint to the new value, if that is below it. -/
theorem casCmp_eq (newCmp cur : UInt64) :
    casCmp newCmp 3 uint64Max cur = if newCmp < cur then newCmp else cur := by
  by_cases hmax : newCmp < uint64Max
  · by_cases hcur : cur = uint64Max
    · subst hcur
      simp [casCmp, hmax, UInt64.lt_irrefl]
    · by_cases hlt : newCmp < cur
      · simp [casCmp, hmax, hcur, hlt, UInt64.ne_of_lt hlt]
      · simp [casCmp, hmax, hcur, hlt]
  · have hlt : ¬ newCmp < cur := fun h ↦ hmax (UInt64.lt_of_lt_of_le h (uint64Max_le cur))
    simp [casCmp, hmax, hlt]

/-- Alone on the list the loop exits within three rounds: more fuel changes nothing. -/
theorem casCmp_add_three (newCmp cur : UInt64) (fuel : ℕ) :
    casCmp newCmp (fuel + 3) uint64Max cur = casCmp newCmp 3 uint64Max cur := by
  by_cases hmax : newCmp < uint64Max
  · by_cases hcur : cur = uint64Max
    · subst hcur
      cases fuel <;> simp [casCmp, hmax, UInt64.lt_irrefl]
    · by_cases hlt : newCmp < cur
      · cases fuel <;> simp [casCmp, hmax, hcur, hlt, UInt64.lt_irrefl, UInt64.ne_of_lt hlt]
      · simp [casCmp, hmax, hcur, hlt]
  · simp [casCmp, hmax]

/-- `prev->CasNext(level, old, new)`: swap the link if it still points to `old`, then lower its
hint to the new node's value. `none` when the swap fails. -/
def casNext (s : SkipList κ) (p level : ℕ) (old new : Option ℕ) (newCmp : UInt64) :
    Option (SkipList κ) :=
  let l := s.link p level
  if l.next = old then some (s.setLink p level ⟨casCmp newCmp 3 uint64Max l.cmp, new⟩)
  else none

/-- The re-read loop of `Insert` after a failed swap: read `prev[i]`'s link and move along it
while the new node belongs after what it points to. Returns the new `prev[i]` and `obs[i]`. -/
def advance (s : SkipList κ) (xKey : κ) (xCmp : UInt64) (level : ℕ) :
    ℕ → ℕ → Option (ℕ × Option ℕ)
  | 0, _ => none
  | fuel + 1, p =>
    let l := s.link p level
    if l.cmp < xCmp || keyIsAfterNode ikey s xKey l.next then
      match l.next with
      | some n => advance s xKey xCmp level fuel n
      | none => none
    else some (p, l.next)

/-- One level of `Insert`: point the new node `x` at the observed node, then swap `prev[i]`'s
link to `x` if the hint allows it; on failure re-read and retry. -/
def linkLevel (s : SkipList κ) (x level : ℕ) : ℕ → ℕ → Option ℕ → Option (SkipList κ)
  | 0, _, _ => none
  | fuel + 1, p, n =>
    let c := s.cmpOf n
    let s := s.setLink x level ⟨c, n⟩
    match if s.cmpAt x ≤ c then casNext s p level n (some x) (s.cmpAt x) else none with
    | some s => some s
    | none =>
      match advance ikey s (s.keyAt x) (s.cmpAt x) level fuel p with
      | some (p, n) => linkLevel s x level fuel p n
      | none => none

/-- `Insert(key)`: search with a trail, check that the key is not there (the `assert`), draw a
height, allocate the node at the end of the arena, and link it at each of its levels from the
bottom up. The retry loops are run with fuel for a walk along the whole level. -/
def insert (s : SkipList κ) (key : κ) : Option (SkipList κ) := do
  let (found, t) ← findGreaterOrEqual ikey ext s key
  if found.any fun n ↦ decide (ikey (s.keyAt n) = ikey key) then none
  let (height, rnd) := randomHeight s.rnd
  let x := s.nodes.length
  let s : SkipList κ := ⟨s.nodes ++ [newNode ext key height], rnd⟩
  (List.range height).foldlM
    (fun s i ↦ linkLevel ikey s x i (s.nodes.length + 2) (t.prev i) (t.obs i)) s

/-- A run of `Insert` calls. -/
def insertAll (s : SkipList κ) : List κ → Option (SkipList κ)
  | [] => some s
  | key :: keys => (insert ikey ext s key).bind fun s ↦ insertAll s keys

/-! ## Reads -/

/-- `Contains(key)`: the node `FindGreaterOrEqual` returns holds an equal key. -/
def contains (s : SkipList κ) (key : κ) : Option Bool :=
  (findGreaterOrEqual ikey ext s key).map fun r ↦
    r.1.any fun n ↦ decide (ikey (s.keyAt n) = ikey key)

/-- `Iterator::Seek(target)`: the node the iterator is left at, `none` for invalid. -/
def seek (s : SkipList κ) (target : κ) : Option (Option ℕ) :=
  (findGreaterOrEqual ikey ext s target).map (·.1)

/-- `Iterator::SeekToFirst`. -/
def seekToFirst (s : SkipList κ) : Option ℕ :=
  s.next 0 0

/-- `Iterator::Next`. -/
def iterNext (s : SkipList κ) (n : ℕ) : Option ℕ :=
  s.next 0 n

/-- `FindLessThan(key)` from node `x` at `level`: move along while the next node is below the
key, else go down, returning the node reached at level `0`. -/
def findLessThanLoop (s : SkipList κ) (key : κ) : ℕ → ℕ → ℕ → Option ℕ
  | 0, _, _ => none
  | fuel + 1, x, level =>
    match s.next level x with
    | some n =>
      if ikey (s.keyAt n) < ikey key then findLessThanLoop s key fuel n level
      else if level = 0 then some x else findLessThanLoop s key fuel x (level - 1)
    | none => if level = 0 then some x else findLessThanLoop s key fuel x (level - 1)

/-- `FindLessThan(key)`: the last node below `key`, `head_` if none. -/
def findLessThan (s : SkipList κ) (key : κ) : Option ℕ :=
  findLessThanLoop ikey s key (s.nodes.length + kMaxHeight) 0 (kMaxHeight - 1)

/-- `FindLast()` from node `x` at `level`. -/
def findLastLoop (s : SkipList κ) : ℕ → ℕ → ℕ → Option ℕ
  | 0, _, _ => none
  | fuel + 1, x, level =>
    match s.next level x with
    | some n => findLastLoop s fuel n level
    | none => if level = 0 then some x else findLastLoop s fuel x (level - 1)

/-- `FindLast()`: the last node, `head_` if the list is empty. -/
def findLast (s : SkipList κ) : Option ℕ :=
  findLastLoop s (s.nodes.length + kMaxHeight) 0 (kMaxHeight - 1)

/-- `Iterator::Prev` from node `n`: the last node below its key, invalid if that is `head_`. -/
def iterPrev (s : SkipList κ) (n : ℕ) : Option (Option ℕ) :=
  (findLessThan ikey s (s.keyAt n)).map fun x ↦ if x = 0 then none else some x

/-- `Iterator::SeekToLast`. -/
def seekToLast (s : SkipList κ) : Option (Option ℕ) :=
  (findLast s).map fun x ↦ if x = 0 then none else some x

/-- The keys `Next` visits from a position until the iterator is invalid. -/
def scanForward (s : SkipList κ) : ℕ → Option ℕ → List κ
  | 0, _ => []
  | _ + 1, none => []
  | fuel + 1, some n => s.keyAt n :: scanForward s fuel (iterNext s n)

/-- The keys `Prev` visits from a position until the iterator is invalid. -/
def scanBackward (s : SkipList κ) : ℕ → Option ℕ → Option (List κ)
  | 0, _ => some []
  | _ + 1, none => some []
  | fuel + 1, some n =>
    (iterPrev ikey s n).bind fun p ↦ (scanBackward s fuel p).map (s.keyAt n :: ·)

end Comparator

end SkipList

end PebblesDB.Db
