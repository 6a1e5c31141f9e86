import PebblesDB.Lib.Buckets

/-!
# The hash table of the LRU cache

`util/cache.cc` keeps the entries of a cache shard in `HandleTable`, a chained hash table of its
own: `list_` holds `length_` chains linked through `next_hash`, and an entry with hash `h` lives
in chain `h & (length_ - 1)`. `FindPointer` walks that chain to the first entry with the hash and
the key, or to its end. `Insert` writes the new entry into that slot, so it takes the place of
the entry with its key; `Remove` unlinks the slot; and once the entries outnumber the chains,
`Resize` rebuilds the table with enough chains, pushing each entry onto the front of its new
chain.

A chain is the list of its entries, head first. The entries are the cache's `LRUHandle`s, each
with the address `malloc` gave it, and what the code reads through a pointer (`key()`, `hash`)
is a field. `length_` and `elems_` are natural numbers: a table holds no more entries than memory
does, far fewer than `2 ^ 32`.

## Results

`Wf` is what the code relies on: at least one chain, no more entries than chains, every entry
in the chain of its hash, no two entries with one hash and key, and `elems_` their number. Each
operation keeps it, and against the entries of the table (`contents`, up to order) each does
what a map does:
- `lookup_eq_some_iff`, `lookup_eq_none_iff`: `Lookup` finds the entry with the hash and key;
- `insert_contents_of_some`, `insert_contents_of_none`, `insert_snd`: `Insert` puts the new
  entry in place of the one with its hash and key, and returns that one;
- `remove_contents_of_some`, `remove_of_none`, `remove_snd`: `Remove` takes the entry out and
  returns it;
- `resize_contents`: `Resize` moves the entries only.
-/

namespace PebblesDB

/-- An `LRUHandle`, less its links and its reference count: the address `malloc` returned, and
the key, hash, value and charge `Insert` filled in, none of which changes afterwards. The
deleter is not a field: the cache's record of its calls stands for it. -/
structure LRUHandle (κ ν : Type*) where
  /-- The address of the entry: it tells two entries of one key apart. -/
  addr : ℕ
  /-- `key()`. -/
  key : κ
  /-- `hash`. -/
  hash : UInt32
  /-- `value`. -/
  value : ν
  /-- `charge`. -/
  charge : UInt64
  deriving DecidableEq, Repr

/-- `HandleTable`: the chains of `list_`, `length_` of them, and `elems_`. -/
structure HandleTable (κ ν : Type*) where
  /-- `list_`, each chain as the list of its entries. -/
  list : List (List (LRUHandle κ ν))
  /-- `elems_`. -/
  elems : ℕ
  deriving Repr

namespace HandleTable

variable {κ ν : Type*}

/-- `hash & (length_ - 1)`: the chain of hash `h` in a table of `length` chains. -/
def bucketOf (length : ℕ) (h : UInt32) : ℕ :=
  h.toNat &&& (length - 1)

variable (t : HandleTable κ ν)

/-- The entries of the table. -/
def contents : List (LRUHandle κ ν) :=
  t.list.flatten

/-- The chain of hash `h`. -/
def chain (h : UInt32) : List (LRUHandle κ ν) :=
  t.list.getD (bucketOf t.list.length h) []

/-- The loop of `Resize` that doubles `new_length`, from `4`, while it is below `elems_`. It
stops within `elems_` rounds, the fuel (`elems_le_growLength`). -/
def growLength (elems : ℕ) : ℕ → ℕ → ℕ
  | 0, n => n
  | fuel + 1, n => if n < elems then growLength elems fuel (n * 2) else n

/-- `Resize`: `new_length` empty chains, and every entry of every old chain, in order, pushed
onto the front of its chain there. -/
def resize : HandleTable κ ν :=
  let newLength := growLength t.elems t.elems 4
  { list := t.list.foldl (fun newList c ↦ c.foldl
        (fun newList e ↦ newList.modify (bucketOf newLength e.hash) (e :: ·)) newList)
      (List.replicate newLength [])
    elems := t.elems }

/-- `HandleTable()`: no chains, then `Resize`. -/
def new : HandleTable κ ν :=
  resize ⟨[], 0⟩

section Find

variable [DecidableEq κ]

/-- The test that stops `FindPointer`: an entry with hash `h` and key `k`. -/
def sameKey (k : κ) (h : UInt32) (e : LRUHandle κ ν) : Bool :=
  e.hash == h && e.key == k

/-- `FindPointer(key, hash)`: the slot of the first entry of the chain with that hash and key,
or the end of the chain. -/
def findPointer (k : κ) (h : UInt32) : ℕ :=
  (t.chain h).findIdx (sameKey k h)

/-- `Lookup(key, hash)`: what the slot `FindPointer` returns holds. -/
def lookup (k : κ) (h : UInt32) : Option (LRUHandle κ ν) :=
  (t.chain h)[t.findPointer k h]?

/-- `Insert(h)`: `h` takes the slot `FindPointer` returns, in place of the entry there or at the
end of the chain. A new key counts in `elems_`, and `Resize` runs once the entries outnumber the
chains. Returns the entry `h` replaced. -/
def insert (e : LRUHandle κ ν) : HandleTable κ ν × Option (LRUHandle κ ν) :=
  let cs := t.chain e.hash
  let slot := t.findPointer e.key e.hash
  let list := t.list.set (bucketOf t.list.length e.hash) (cs.take slot ++ e :: cs.drop (slot + 1))
  match cs[slot]? with
  | some old => ({ list, elems := t.elems }, some old)
  | none =>
    let t' : HandleTable κ ν := { list, elems := t.elems + 1 }
    (if t'.elems > t'.list.length then t'.resize else t', none)

/-- `Remove(key, hash)`: unlink the entry in the slot `FindPointer` returns, if there is one,
and return it. -/
def remove (k : κ) (h : UInt32) : HandleTable κ ν × Option (LRUHandle κ ν) :=
  let cs := t.chain h
  let slot := t.findPointer k h
  match cs[slot]? with
  | some e =>
    ({ list := t.list.set (bucketOf t.list.length h) (cs.eraseIdx slot), elems := t.elems - 1 },
      some e)
  | none => (t, none)

end Find

/-! ## The invariant -/

/-- Two entries with one hash and key. -/
def Clash (a b : LRUHandle κ ν) : Prop :=
  a.hash = b.hash ∧ a.key = b.key

/-- What `FindPointer`, `Insert` and `Remove` rely on. -/
structure Wf : Prop where
  /-- There is a chain, so `hash & (length_ - 1)` names one. -/
  length_pos : 0 < t.list.length
  /-- `Resize` runs before the entries outnumber the chains. -/
  load : t.elems ≤ t.list.length
  /-- Every entry is in the chain of its hash. -/
  placed : Buckets.Placed (fun e ↦ bucketOf t.list.length e.hash) t.list
  /-- `elems_` counts the entries. -/
  elems : t.elems = t.contents.length
  /-- No two entries have one hash and key. -/
  unique : t.contents.Pairwise fun a b ↦ ¬ Clash a b

variable {t}

theorem bucketOf_lt {length : ℕ} (hl : 0 < length) (h : UInt32) : bucketOf length h < length :=
  Nat.lt_of_le_of_lt Nat.and_le_right (Nat.sub_lt hl Nat.one_pos)

theorem Wf.nodup (hw : t.Wf) : t.contents.Nodup :=
  hw.unique.imp fun {a b} hab heq ↦ hab (by rw [heq]; exact ⟨rfl, rfl⟩)

theorem clash_symm {a b : LRUHandle κ ν} (h : ¬ Clash a b) : ¬ Clash b a :=
  fun hba ↦ h ⟨hba.1.symm, hba.2.symm⟩

/-! ## Chains -/

/-- The chain of hash `h` holds the entries whose hash falls in its bucket. -/
theorem Wf.mem_chain_iff (hw : t.Wf) {h : UInt32} {e : LRUHandle κ ν} :
    e ∈ t.chain h ↔
      e ∈ t.contents ∧ bucketOf t.list.length e.hash = bucketOf t.list.length h :=
  hw.placed.mem_getD_iff (bucketOf_lt hw.length_pos h)

/-- The entries of the other chains. -/
def others (t : HandleTable κ ν) (h : UInt32) : List (LRUHandle κ ν) :=
  (t.list.eraseIdx (bucketOf t.list.length h)).flatten

/-- The entries are the chain of `h` and the others. -/
theorem Wf.contents_perm (hw : t.Wf) (h : UInt32) :
    t.contents.Perm (t.chain h ++ t.others h) := by
  have hi := bucketOf_lt hw.length_pos h
  rw [chain, List.getD_eq_getElem _ _ hi]
  exact Buckets.perm_flatten_eraseIdx hi

/-- Writing a chain over the chain of `h`. -/
theorem Wf.contents_set_chain (hw : t.Wf) (h : UInt32) (c : List (LRUHandle κ ν)) :
    (t.list.set (bucketOf t.list.length h) c).flatten.Perm (c ++ t.others h) :=
  Buckets.perm_flatten_set (bucketOf_lt hw.length_pos h) c

/-- No entry of another chain has hash `h`. -/
theorem Wf.hash_ne_of_mem_others (hw : t.Wf) {h : UInt32} {e : LRUHandle κ ν}
    (he : e ∈ t.others h) : e.hash ≠ h := by
  rintro rfl
  have hmem : e ∈ t.contents := ((hw.contents_perm e.hash).mem_iff).2 (List.mem_append_right _ he)
  have hchain : e ∈ t.chain e.hash := hw.mem_chain_iff.2 ⟨hmem, rfl⟩
  have hnd := (hw.contents_perm e.hash).nodup_iff.1 hw.nodup
  exact List.disjoint_of_nodup_append hnd hchain he

theorem Wf.chain_sublist (hw : t.Wf) (h : UInt32) : (t.chain h).Sublist t.contents := by
  rw [chain, List.getD_eq_getElem _ _ (bucketOf_lt hw.length_pos h)]
  exact List.sublist_flatten_of_mem (List.getElem_mem _)

/-! ## `Resize` -/

theorem le_growLength (elems : ℕ) : ∀ fuel n, n ≤ growLength elems fuel n
  | 0, _ => Nat.le_refl _
  | fuel + 1, n => by
    rw [growLength]
    split
    · exact Nat.le_trans (Nat.le_mul_of_pos_right n (by decide)) (le_growLength elems fuel _)
    · exact Nat.le_refl _

/-- The loop reaches `elems_` once `n` doubled `fuel` times does. -/
theorem le_growLength_of_le {elems : ℕ} :
    ∀ fuel n, elems ≤ n * 2 ^ fuel → elems ≤ growLength elems fuel n
  | 0, n, h => by
    rw [Nat.pow_zero, Nat.mul_one] at h
    exact h
  | fuel + 1, n, h => by
    rw [growLength]
    split
    · refine le_growLength_of_le fuel _ ?_
      rwa [Nat.pow_succ, Nat.mul_comm (2 ^ fuel), ← Nat.mul_assoc] at h
    · omega

/-- **The fuel of `Resize` suffices**: `new_length` reaches `elems_`. -/
theorem elems_le_growLength (elems : ℕ) : elems ≤ growLength elems elems 4 :=
  le_growLength_of_le elems 4 (Nat.le_trans (Nat.le_of_lt Nat.lt_two_pow_self)
    (Nat.le_mul_of_pos_left _ (by decide)))

/-- `Resize` pushes the entries onto `new_length` empty chains, in the order of `contents`. -/
theorem resize_list (t : HandleTable κ ν) :
    t.resize.list = t.contents.foldl
      (fun l e ↦ l.modify (bucketOf (growLength t.elems t.elems 4) e.hash) (e :: ·))
      (List.replicate (growLength t.elems t.elems 4) []) := by
  rw [resize, contents, List.foldl_flatten]

theorem length_resize (t : HandleTable κ ν) :
    t.resize.list.length = growLength t.elems t.elems 4 := by
  rw [resize_list, Buckets.length_foldl_push, List.length_replicate]

/-- **`Resize` moves the entries only.** -/
theorem resize_contents (t : HandleTable κ ν) : t.resize.contents.Perm t.contents := by
  have hlen : 0 < growLength t.elems t.elems 4 :=
    Nat.lt_of_lt_of_le (by decide) (le_growLength _ _ _)
  rw [contents, resize_list]
  refine (Buckets.perm_flatten_foldl_push _ _ fun e _ ↦ ?_).trans ?_
  · rw [List.length_replicate]
    exact bucketOf_lt hlen _
  · rw [List.flatten_replicate_nil, List.append_nil]
    exact List.reverse_perm _

/-- `Resize` makes a table well formed from entries that are counted and without clashes. -/
theorem wf_resize (helems : t.elems = t.contents.length)
    (hu : t.contents.Pairwise fun a b ↦ ¬ Clash a b) : t.resize.Wf where
  length_pos := by
    rw [length_resize]
    exact Nat.lt_of_lt_of_le (by decide) (le_growLength _ _ _)
  load := by
    rw [length_resize]
    exact elems_le_growLength _
  placed := by
    rw [length_resize, resize_list]
    exact (Buckets.placed_replicate_nil _).foldl_push _
  elems := by
    rw [(resize_contents t).length_eq]
    exact helems
  unique := hu.perm (resize_contents t).symm clash_symm

/-- `HandleTable()` is an empty table, well formed. -/
theorem new_contents : (new : HandleTable κ ν).contents = [] := by
  rw [new]
  exact List.eq_nil_of_length_eq_zero (resize_contents _).length_eq

theorem wf_new : (new : HandleTable κ ν).Wf :=
  wf_resize rfl List.Pairwise.nil

/-! ## `Lookup`, `Insert` and `Remove` -/

section Find

variable [DecidableEq κ]

@[simp]
theorem sameKey_iff {k : κ} {h : UInt32} {e : LRUHandle κ ν} :
    sameKey k h e = true ↔ e.hash = h ∧ e.key = k := by
  simp [sameKey]

/-- Two entries with the hash and key looked for are one. -/
theorem Wf.eq_of_sameKey (hw : t.Wf) {k : κ} {h : UInt32} {a b : LRUHandle κ ν}
    (ha : a ∈ t.contents) (hb : b ∈ t.contents) (hka : sameKey k h a) (hkb : sameKey k h b) :
    a = b := by
  by_contra hne
  rw [sameKey_iff] at hka hkb
  have hsymm : Std.Symm fun a b : LRUHandle κ ν ↦ ¬ Clash a b := ⟨fun _ _ ↦ clash_symm⟩
  exact hw.unique.forall ha hb hne ⟨hka.1.trans hkb.1.symm, hka.2.trans hkb.2.symm⟩

/-- A chain holds at most one entry with the hash and key looked for. -/
theorem Wf.length_filter_chain_le (hw : t.Wf) (k : κ) (h : UInt32) :
    ((t.chain h).filter (sameKey k h)).length ≤ 1 := by
  refine Buckets.length_filter_le_one (hw.unique.sublist (hw.chain_sublist h)) ?_
  intro a b ha hb hab
  rw [sameKey_iff] at ha hb
  exact hab ⟨ha.1.trans hb.1.symm, ha.2.trans hb.2.symm⟩

/-- The other chains hold no entry with hash `h`. -/
theorem Wf.filter_others (hw : t.Wf) (k : κ) (h : UInt32) :
    (t.others h).filter (fun x ↦ !sameKey k h x) = t.others h := by
  refine List.filter_eq_self.2 fun x hx ↦ ?_
  simp [sameKey, hw.hash_ne_of_mem_others hx]

theorem lookup_eq_find? (k : κ) (h : UInt32) : t.lookup k h = (t.chain h).find? (sameKey k h) :=
  List.find?_eq_getElem?_findIdx.symm

/-- **`Lookup` finds the entry with the hash and key.** -/
theorem Wf.lookup_eq_some_iff (hw : t.Wf) {k : κ} {h : UInt32} {e : LRUHandle κ ν} :
    t.lookup k h = some e ↔ e ∈ t.contents ∧ e.hash = h ∧ e.key = k := by
  rw [lookup_eq_find?]
  constructor
  · intro hfind
    exact ⟨(hw.mem_chain_iff.1 (List.mem_of_find?_eq_some hfind)).1,
      sameKey_iff.1 (List.find?_some hfind)⟩
  · rintro ⟨he, rfl, rfl⟩
    have hchain : e ∈ t.chain e.hash := hw.mem_chain_iff.2 ⟨he, rfl⟩
    obtain ⟨x, hx⟩ := Option.isSome_iff_exists.1
      (List.find?_isSome.2 ⟨e, hchain, sameKey_iff.2 ⟨rfl, rfl⟩⟩)
    have hxe : x = e := hw.eq_of_sameKey (hw.chain_sublist _ |>.subset
      (List.mem_of_find?_eq_some hx)) he (List.find?_some hx) (sameKey_iff.2 ⟨rfl, rfl⟩)
    rw [hx, hxe]

/-- `Lookup` finds nothing when no entry has the hash and key. -/
theorem Wf.lookup_eq_none_iff (hw : t.Wf) {k : κ} {h : UInt32} :
    t.lookup k h = none ↔ ∀ e ∈ t.contents, ¬ (e.hash = h ∧ e.key = k) := by
  constructor
  · intro hnone e he hek
    have hsome := hw.lookup_eq_some_iff.2 ⟨he, hek⟩
    rw [hnone] at hsome
    cases hsome
  · intro hno
    rw [lookup_eq_find?, List.find?_eq_none]
    intro x hx hkx
    exact hno x (hw.chain_sublist h |>.subset hx) (sameKey_iff.1 hkx)

/-- Without the entry `Lookup` finds, the entries are those without its hash and key. -/
theorem Wf.filter_eq_erase [DecidableEq ν] (hw : t.Wf) {k : κ} {h : UInt32} {o : LRUHandle κ ν}
    (ho : t.lookup k h = some o) :
    t.contents.filter (fun x ↦ !sameKey k h x) = t.contents.erase o := by
  have ho' := hw.lookup_eq_some_iff.1 ho
  rw [hw.nodup.erase_eq_filter]
  refine List.filter_congr fun x hx ↦ ?_
  by_cases hxo : x = o
  · subst hxo
    simp [ho'.2]
  · have hne : ¬ sameKey k h x := fun hk ↦
      hxo (hw.eq_of_sameKey hx ho'.1 hk (sameKey_iff.2 ho'.2))
    simp only [Bool.not_eq_true] at hne
    simp [hne, hxo]

theorem Wf.filter_eq_self (hw : t.Wf) {k : κ} {h : UInt32} (ho : t.lookup k h = none) :
    t.contents.filter (fun x ↦ !sameKey k h x) = t.contents := by
  refine List.filter_eq_self.2 fun x hx ↦ ?_
  cases hk : sameKey k h x with
  | false => rfl
  | true => exact absurd (sameKey_iff.1 hk) (hw.lookup_eq_none_iff.1 ho x hx)

/-- Removing the matches of the chain of `h` removes them from the table. -/
theorem Wf.contents_filter_perm (hw : t.Wf) (k : κ) (h : UInt32) :
    ((t.chain h).filter (fun x ↦ !sameKey k h x) ++ t.others h).Perm
      (t.contents.filter fun x ↦ !sameKey k h x) := by
  have hperm := (hw.contents_perm h).filter (fun x ↦ !sameKey k h x)
  rw [List.filter_append, hw.filter_others] at hperm
  exact hperm.symm

/-- The chain that `Insert` writes. -/
def putChain (t : HandleTable κ ν) (e : LRUHandle κ ν) : List (LRUHandle κ ν) :=
  let cs := t.chain e.hash
  cs.take (t.findPointer e.key e.hash) ++ e :: cs.drop (t.findPointer e.key e.hash + 1)

/-- Writing `e` into its slot puts it in place of the entry with its hash and key. -/
theorem Wf.contents_put (hw : t.Wf) (e : LRUHandle κ ν) :
    (t.list.set (bucketOf t.list.length e.hash) (t.putChain e)).flatten.Perm
      (e :: t.contents.filter fun x ↦ !sameKey e.key e.hash x) := by
  have hput := Buckets.perm_put_findIdx (hw.length_filter_chain_le e.key e.hash) e
  refine (hw.contents_set_chain e.hash _).trans ?_
  refine (hput.append_right _).trans ?_
  rw [List.cons_append]
  exact (hw.contents_filter_perm e.key e.hash).cons e

/-- The chain `Insert` writes holds entries of its bucket. -/
theorem Wf.bucketOf_putChain (hw : t.Wf) (e : LRUHandle κ ν) :
    ∀ x ∈ t.putChain e, bucketOf t.list.length x.hash = bucketOf t.list.length e.hash := by
  intro x hx
  rcases List.mem_append.1 hx with hx | hx
  · exact (hw.mem_chain_iff.1 (List.mem_of_mem_take hx)).2
  · rcases List.mem_cons.1 hx with rfl | hx
    · rfl
    · exact (hw.mem_chain_iff.1 (List.mem_of_mem_drop hx)).2

theorem insert_snd (e : LRUHandle κ ν) : (t.insert e).2 = t.lookup e.key e.hash := by
  unfold insert lookup
  dsimp only
  split <;> rename_i hslot <;> rw [hslot]

theorem insert_of_some {e o : LRUHandle κ ν} (ho : t.lookup e.key e.hash = some o) :
    t.insert e =
      (⟨t.list.set (bucketOf t.list.length e.hash) (t.putChain e), t.elems⟩, some o) := by
  unfold insert
  unfold lookup at ho
  dsimp only
  rw [ho]
  rfl

theorem insert_of_none {e : LRUHandle κ ν} (ho : t.lookup e.key e.hash = none) :
    t.insert e =
      (let t' : HandleTable κ ν :=
        ⟨t.list.set (bucketOf t.list.length e.hash) (t.putChain e), t.elems + 1⟩
      if t'.elems > t'.list.length then t'.resize else t', none) := by
  unfold insert
  unfold lookup at ho
  dsimp only
  rw [ho]
  rfl

/-- **`Insert` replaces the entry with the new one's hash and key.** -/
theorem Wf.insert_contents_of_some [DecidableEq ν] (hw : t.Wf) {e o : LRUHandle κ ν}
    (ho : t.lookup e.key e.hash = some o) :
    (t.insert e).1.contents.Perm (e :: t.contents.erase o) := by
  rw [insert_of_some ho, ← hw.filter_eq_erase ho]
  exact hw.contents_put e

theorem Wf.insert_contents_of_none (hw : t.Wf) {e : LRUHandle κ ν}
    (ho : t.lookup e.key e.hash = none) : (t.insert e).1.contents.Perm (e :: t.contents) := by
  rw [insert_of_none ho]
  dsimp only
  have hput := hw.contents_put e
  rw [hw.filter_eq_self ho] at hput
  split
  · exact (resize_contents _).trans hput
  · exact hput

/-- **`Insert` keeps the table well formed.** -/
theorem Wf.insert [DecidableEq ν] (hw : t.Wf) (e : LRUHandle κ ν) : (t.insert e).1.Wf := by
  -- the table with `e` written into its chain, before any `Resize`
  obtain ⟨list', hlist'⟩ :
      ∃ l, l = t.list.set (bucketOf t.list.length e.hash) (t.putChain e) := ⟨_, rfl⟩
  have hlen : list'.length = t.list.length := by
    rw [hlist']
    exact List.length_set
  have hperm : list'.flatten.Perm (e :: t.contents.filter fun x ↦ !sameKey e.key e.hash x) := by
    rw [hlist']
    exact hw.contents_put e
  have hplaced : Buckets.Placed (fun x ↦ bucketOf list'.length x.hash) list' := by
    rw [hlen, hlist']
    exact hw.placed.set (hw.bucketOf_putChain e)
  have hunique : list'.flatten.Pairwise fun a b ↦ ¬ Clash a b := by
    refine (List.pairwise_cons.2 ⟨fun x hx hclash ↦ ?_, hw.unique.filter _⟩).perm hperm.symm
      clash_symm
    -- what stays of the chain has not `e`'s hash and key
    have hkx := (List.mem_filter.1 hx).2
    rw [Bool.not_eq_true', Bool.eq_false_iff] at hkx
    exact hkx (sameKey_iff.2 ⟨hclash.1.symm, hclash.2.symm⟩)
  have hpos : 0 < list'.length := hlen ▸ hw.length_pos
  cases ho : t.lookup e.key e.hash with
  | some o =>
    have ho' := (hw.lookup_eq_some_iff.1 ho).1
    have hne : 0 < t.contents.length := List.length_pos_of_mem ho'
    rw [insert_of_some ho, ← hlist']
    refine ⟨hpos, hlen ▸ hw.load, hplaced, ?_, hunique⟩
    dsimp only
    rw [contents, hperm.length_eq, List.length_cons, hw.filter_eq_erase ho,
      List.length_erase_of_mem ho', hw.elems]
    omega
  | none =>
    have helems : t.elems + 1 = list'.flatten.length := by
      rw [hperm.length_eq, hw.filter_eq_self ho, List.length_cons, hw.elems]
    rw [insert_of_none ho, ← hlist']
    dsimp only
    split
    · exact wf_resize helems hunique
    · rename_i hfull
      exact ⟨hpos, Nat.le_of_not_lt hfull, hplaced, helems, hunique⟩

theorem remove_snd (k : κ) (h : UInt32) : (t.remove k h).2 = t.lookup k h := by
  unfold remove lookup
  dsimp only
  split <;> rename_i hslot <;> rw [hslot]

theorem remove_of_none {k : κ} {h : UInt32} (ho : t.lookup k h = none) :
    t.remove k h = (t, none) := by
  unfold remove
  unfold lookup at ho
  dsimp only
  rw [ho]

theorem remove_of_some {k : κ} {h : UInt32} {o : LRUHandle κ ν} (ho : t.lookup k h = some o) :
    t.remove k h = (⟨t.list.set (bucketOf t.list.length h)
      ((t.chain h).eraseIdx (t.findPointer k h)), t.elems - 1⟩, some o) := by
  unfold remove
  unfold lookup at ho
  dsimp only
  rw [ho]

/-- **`Remove` takes the entry with the hash and key out.** -/
theorem Wf.remove_contents_of_some [DecidableEq ν] (hw : t.Wf) {k : κ} {h : UInt32}
    {o : LRUHandle κ ν} (ho : t.lookup k h = some o) :
    (t.remove k h).1.contents.Perm (t.contents.erase o) := by
  rw [remove_of_some ho, ← hw.filter_eq_erase ho]
  refine (hw.contents_set_chain h _).trans ?_
  rw [findPointer, Buckets.eraseIdx_findIdx (hw.length_filter_chain_le k h)]
  exact hw.contents_filter_perm k h

/-- **`Remove` keeps the table well formed.** -/
theorem Wf.remove [DecidableEq ν] (hw : t.Wf) (k : κ) (h : UInt32) : (t.remove k h).1.Wf := by
  cases ho : t.lookup k h with
  | none =>
    rw [remove_of_none ho]
    exact hw
  | some o =>
    have hperm := hw.remove_contents_of_some ho
    have ho' := (hw.lookup_eq_some_iff.1 ho).1
    -- the table with the entry's slot unlinked
    obtain ⟨list', hlist'⟩ : ∃ l, l = t.list.set (bucketOf t.list.length h)
        ((t.chain h).eraseIdx (t.findPointer k h)) := ⟨_, rfl⟩
    have hlen : list'.length = t.list.length := by
      rw [hlist']
      exact List.length_set
    rw [remove_of_some ho, ← hlist'] at hperm ⊢
    refine ⟨hlen ▸ hw.length_pos, ?_, ?_, ?_, ?_⟩
    · rw [hlen]
      exact Nat.le_trans (Nat.sub_le _ _) hw.load
    · -- what stays of the chain is still in its bucket
      dsimp only
      rw [hlen, hlist']
      refine hw.placed.set fun x hx ↦ ?_
      exact (hw.mem_chain_iff.1 ((List.eraseIdx_sublist _ _).subset hx)).2
    · have hcount : (⟨list', t.elems - 1⟩ : HandleTable κ ν).contents.length =
          (t.contents.erase o).length := hperm.length_eq
      dsimp only
      rw [hcount, List.length_erase_of_mem ho', hw.elems]
    · exact (hw.unique.sublist List.erase_sublist).perm hperm.symm clash_symm

end Find

end HandleTable

end PebblesDB
