import Mathlib.Order.Lattice
import Mathlib.Data.Nat.Basic

/-!
# Heapq — the binary heap of Python's `heapq`

The functions below are `heappush`, `heappop` and `heapify` of the standard library on an array.
Items are compared by a key in a linear order, so that different items may be equivalent.

The library moves a hole through the array and stores the new item at the end; here every move is a
swap with the new item, which gives the same array, and is what the C code of the library does.  In
`heapq` the item travels *towards the root* in `_siftdown`, and `_siftup` first sends it to a leaf
along the smaller children.
-/

namespace Lib.Heapq

variable {α κ : Type*} [LinearOrder κ] (key : α → κ)

/-! ## The algorithms -/

/-- `_siftdown(heap, 0, pos)`: while the item at `pos` is smaller than its parent, they change
places.  `pos` steps are enough. -/
def siftdown : Nat → Array α → Nat → Array α
  | 0, heap, _ => heap
  | fuel + 1, heap, pos =>
    if h : 0 < pos ∧ pos < heap.size then
      if key heap[pos] < key heap[(pos - 1) / 2] then
        siftdown fuel (heap.swap pos ((pos - 1) / 2)) ((pos - 1) / 2)
      else
        heap
    else
      heap

/-- `_siftdown(heap, startpos, pos)`, which does not go above `startpos`. -/
def siftdownFrom (startpos : Nat) : Nat → Array α → Nat → Array α
  | 0, heap, _ => heap
  | fuel + 1, heap, pos =>
    if h : startpos < pos ∧ pos < heap.size then
      if key heap[pos] < key heap[(pos - 1) / 2] then
        siftdownFrom startpos fuel (heap.swap pos ((pos - 1) / 2)) ((pos - 1) / 2)
      else
        heap
    else
      heap

/-- The child that `_siftup` moves up: the right one if it exists and the left one is not
smaller. -/
def smallerChild (heap : Array α) (pos : Nat) : Nat :=
  if h : 2 * pos + 2 < heap.size then
    if key heap[2 * pos + 1] < key heap[2 * pos + 2] then 2 * pos + 1 else 2 * pos + 2
  else
    2 * pos + 1

/-- The loop of `_siftup(heap, 0)`: the item at `pos` changes places with its smaller child until it
is at a leaf.  The result is the array and the place of the leaf. -/
def sink : Nat → Array α → Nat → Array α × Nat
  | 0, heap, pos => (heap, pos)
  | fuel + 1, heap, pos =>
    if h : smallerChild key heap pos < heap.size ∧ pos < heap.size then
      sink fuel (heap.swap pos (smallerChild key heap pos)) (smallerChild key heap pos)
    else
      (heap, pos)

/-- `_siftup(heap, pos)` -/
def siftup (heap : Array α) (pos : Nat) : Array α :=
  let moved := sink key heap.size heap pos
  siftdownFrom key pos heap.size moved.1 moved.2

/-- The loop of `heapify`, from the last item before `pos` to the first one. -/
def heapifyFrom : Nat → Array α → Array α
  | 0, heap => heap
  | pos + 1, heap => heapifyFrom pos (siftup key heap pos)

def heapify (heap : Array α) : Array α :=
  heapifyFrom key (heap.size / 2) heap

def heappush (heap : Array α) (item : α) : Array α :=
  siftdown key heap.size (heap.push item) heap.size

/-- `heappop`; `none` is the `IndexError` of an empty heap. -/
def heappop (heap : Array α) : Option (α × Array α) :=
  match heap.back? with
  | none => none
  | some lastelt =>
    if h : 0 < heap.pop.size then
      -- the last item takes the root's place, goes down to a leaf, and from there up again
      let moved := sink key heap.size (heap.pop.set 0 lastelt) 0
      some (heap.pop[0], siftdown key moved.2 moved.1 moved.2)
    else
      -- the heap had one item
      some (lastelt, heap.pop)

/-! ## The stored items -/

theorem siftdownFrom_perm (startpos fuel : Nat) (heap : Array α) (pos : Nat) :
    (siftdownFrom key startpos fuel heap pos).Perm heap := by
  induction fuel generalizing heap pos with
  | zero => exact Array.Perm.refl heap
  | succ fuel ih =>
    unfold siftdownFrom
    split
    · split
      · exact (ih _ _).trans (Array.swap_perm _ _)
      · exact Array.Perm.refl heap
    · exact Array.Perm.refl heap

/-- `siftdown` goes up to the root. -/
theorem siftdown_eq (fuel : Nat) (heap : Array α) (pos : Nat) :
    siftdown key fuel heap pos = siftdownFrom key 0 fuel heap pos := by
  induction fuel generalizing heap pos with
  | zero => rfl
  | succ fuel ih =>
    unfold siftdown siftdownFrom
    simp only [ih]

theorem siftdown_perm (fuel : Nat) (heap : Array α) (pos : Nat) :
    (siftdown key fuel heap pos).Perm heap := by
  rw [siftdown_eq]
  exact siftdownFrom_perm key 0 fuel heap pos

theorem sink_perm (fuel : Nat) (heap : Array α) (pos : Nat) :
    (sink key fuel heap pos).1.Perm heap := by
  induction fuel generalizing heap pos with
  | zero => exact Array.Perm.refl heap
  | succ fuel ih =>
    unfold sink
    split
    · exact (ih _ _).trans (Array.swap_perm _ _)
    · exact Array.Perm.refl heap

theorem heappush_perm (heap : Array α) (item : α) :
    (heappush key heap item).Perm (heap.push item) :=
  siftdown_perm key _ _ _

theorem siftup_perm (heap : Array α) (pos : Nat) : (siftup key heap pos).Perm heap :=
  (siftdownFrom_perm key _ _ _ _).trans (sink_perm key _ _ _)

theorem heapifyFrom_perm (pos : Nat) (heap : Array α) : (heapifyFrom key pos heap).Perm heap := by
  induction pos generalizing heap with
  | zero => exact Array.Perm.refl heap
  | succ pos ih => exact (ih _).trans (siftup_perm key heap pos)

theorem heapify_perm (heap : Array α) : (heapify key heap).Perm heap :=
  heapifyFrom_perm key _ heap

/-! ## The heap order -/

/-- `p` is the parent of `i`. -/
def IsParent (p i : Nat) : Prop :=
  0 < i ∧ (i - 1) / 2 = p

theorem IsParent.lt {p i : Nat} (h : IsParent p i) : p < i := by
  rcases h with ⟨h0, h1⟩
  omega

theorem IsParent.child {p i : Nat} (h : IsParent p i) : i = 2 * p + 1 ∨ i = 2 * p + 2 := by
  rcases h with ⟨h0, h1⟩
  omega

theorem IsParent.unique {p q i : Nat} (hp : IsParent p i) (hq : IsParent q i) : p = q :=
  hp.2.symm.trans hq.2

/-- Every item is at or after its parent. -/
def Ordered (heap : Array α) : Prop :=
  ∀ p i (hp : p < heap.size) (hi : i < heap.size), IsParent p i → key heap[p] ≤ key heap[i]

/-- `pos` is `startpos`, or its parent is below it. -/
inductive Below (startpos : Nat) : Nat → Prop
  | refl : Below startpos startpos
  | child {par pos : Nat} : Below startpos par → IsParent par pos → Below startpos pos

theorem Below.le {startpos pos : Nat} (h : Below startpos pos) : startpos ≤ pos := by
  induction h with
  | refl => exact le_refl _
  | child _ hpar ih => exact ih.trans hpar.lt.le

theorem Below.parent {startpos pos par : Nat} (h : Below startpos pos) (hlt : startpos < pos)
    (hpar : IsParent par pos) :
    Below startpos par := by
  cases h with
  | refl => exact absurd hlt (lt_irrefl _)
  | child h hp => exact hp.unique hpar ▸ h

theorem below_zero (pos : Nat) : Below 0 pos := by
  induction pos using Nat.strong_induction_on with
  | _ pos ih =>
    by_cases hpos : pos = 0
    · subst hpos
      exact Below.refl
    · have hpar : IsParent ((pos - 1) / 2) pos := ⟨by omega, rfl⟩
      exact (ih _ hpar.lt).child hpar

/-- The children of the items from `startpos` on are at or after them. -/
def OrderedFrom (startpos : Nat) (heap : Array α) : Prop :=
  ∀ p i (hp : p < heap.size) (hi : i < heap.size), startpos ≤ p → IsParent p i → key heap[p] ≤ key heap[i]

/-- The children of `pos` are at or after the parent of `pos`. -/
def Grand (startpos : Nat) (heap : Array α) (pos : Nat) : Prop :=
  ∀ g i (hg : g < heap.size) (hi : i < heap.size), startpos ≤ g → IsParent g pos → IsParent pos i →
    key heap[g] ≤ key heap[i]

/-- What `_siftdown` needs at `pos`: only the item at `pos` may be before its parent. -/
structure UpOrdered (startpos : Nat) (heap : Array α) (pos : Nat) : Prop where
  off : ∀ p i (hp : p < heap.size) (hi : i < heap.size), startpos ≤ p → IsParent p i → i ≠ pos →
    key heap[p] ≤ key heap[i]
  grand : Grand key startpos heap pos

/-- What the loop of `_siftup` keeps at `pos`: the item at `pos` may be out of order with its parent
and with its children. -/
structure DownOrdered (startpos : Nat) (heap : Array α) (pos : Nat) : Prop where
  off : ∀ p i (hp : p < heap.size) (hi : i < heap.size), startpos ≤ p → IsParent p i → i ≠ pos → p ≠ pos →
    key heap[p] ≤ key heap[i]
  grand : Grand key startpos heap pos

variable {key} {heap : Array α}

theorem orderedFrom_zero : OrderedFrom key 0 heap ↔ Ordered key heap :=
  ⟨fun h p i hp hi => h p i hp hi (Nat.zero_le p), fun h p i hp hi _ => h p i hp hi⟩

theorem Ordered.root_le (h : Ordered key heap) (h0 : 0 < heap.size) :
    ∀ i (hi : i < heap.size), key heap[0] ≤ key heap[i] := by
  intro i
  -- along the path from `i` to the root
  induction i using Nat.strong_induction_on with
  | _ i ih =>
    intro hi
    by_cases hi0 : i = 0
    · subst hi0
      exact le_refl _
    · have hpar : IsParent ((i - 1) / 2) i := ⟨by omega, rfl⟩
      have hp : (i - 1) / 2 < heap.size := by omega
      exact (ih _ hpar.lt hp).trans (h _ _ hp hi hpar)

theorem UpOrdered.swap {startpos : Nat} {pos par : Nat} (h : UpOrdered key startpos heap pos)
    (hpos : pos < heap.size) (hpar : par < heap.size) (hstart : startpos ≤ par) (hp : IsParent par pos)
    (hlt : key heap[pos] < key heap[par]) : UpOrdered key startpos (heap.swap pos par) par := by
  have hlt' := hp.lt
  constructor
  · intro p i hp' hi' hsp hpi hne
    simp only [Array.size_swap] at hp' hi'
    have := hpi.lt
    rw [Array.getElem_swap, Array.getElem_swap]
    by_cases hip : i = pos
    · -- the item has moved above its old parent
      have hpp : p = par := hpi.unique (hip ▸ hp)
      simp [hip, hpp, hlt'.ne, hlt.le]
    · by_cases hppos : p = pos
      · -- a child of `pos` now hangs below the old parent
        have := h.grand par i hpar hi' hstart hp (hppos ▸ hpi)
        simpa [hip, hne, hppos] using this
      · by_cases hppar : p = par
        · -- the other child of the old parent
          have := h.off par i hpar hi' hstart (hppar ▸ hpi) hip
          simpa [hip, hne, hppar, hlt'.ne] using hlt.le.trans this
        · simpa [hip, hne, hppos, hppar] using h.off p i hp' hi' hsp hpi hip
  · intro g i hg hi hsg hgp hpi
    simp only [Array.size_swap] at hg hi
    have hgpar := hgp.lt
    have hpari := hpi.lt
    rw [Array.getElem_swap, Array.getElem_swap]
    have hup : key heap[g] ≤ key heap[par] := h.off g par hg hpar hsg hgp hlt'.ne
    by_cases hip : i = pos
    · have h1 : g ≠ pos := by omega
      simpa [hip, h1, hgpar.ne] using hup
    · have h1 : g ≠ pos := by omega
      have := h.off par i hpar hi hstart hpi hip
      simpa [hip, h1, hgpar.ne, hpari.ne'] using hup.trans this

theorem siftdownFrom_ordered (startpos fuel : Nat) (heap : Array α) (pos : Nat) (hf : pos ≤ fuel)
    (hbelow : Below startpos pos) (h : UpOrdered key startpos heap pos) :
    OrderedFrom key startpos (siftdownFrom key startpos fuel heap pos) := by
  induction fuel generalizing heap pos with
  | zero =>
    intro p i hp hi hsp hpi
    have := hpi.lt
    -- position 0 has no parent to be out of order with
    exact h.off p i hp hi hsp hpi (by omega)
  | succ fuel ih =>
    unfold siftdownFrom
    split
    · rename_i hb
      have hpar : IsParent ((pos - 1) / 2) pos := ⟨by omega, rfl⟩
      have hup := hbelow.parent hb.1 hpar
      split
      · rename_i hlt
        exact ih _ _ (by omega) hup (h.swap hb.2 (by omega) hup.le hpar hlt)
      -- the loop stops here: the one pair in doubt is in order
      · rename_i hge
        intro p i hp hi hsp hpi
        by_cases hip : i = pos
        · subst hip
          have : p = (i - 1) / 2 := hpi.unique hpar
          subst this
          exact not_lt.1 hge
        · exact h.off p i hp hi hsp hpi hip
    · rename_i hb
      intro p i hp hi hsp hpi
      have := hpi.lt
      exact h.off p i hp hi hsp hpi (by rintro rfl; exact hb ⟨by omega, hi⟩)

theorem DownOrdered.swap {startpos : Nat} {pos c : Nat} (h : DownOrdered key startpos heap pos)
    (hpos : pos < heap.size) (hc : c < heap.size) (hstart : startpos ≤ pos) (hpc : IsParent pos c)
    (hmin : ∀ i (hi : i < heap.size), IsParent pos i → key heap[c] ≤ key heap[i]) :
    DownOrdered key startpos (heap.swap pos c) c := by
  have hlt := hpc.lt
  constructor
  · intro p i hp hi hsp hpi hic hpc'
    simp only [Array.size_swap] at hp hi
    have hpi' := hpi.lt
    rw [Array.getElem_swap, Array.getElem_swap]
    by_cases hip : i = pos
    -- the child has moved up below its grandparent
    · have hgp : IsParent p pos := hip ▸ hpi
      have := h.grand p c hp hc hsp hgp hpc
      have hne : p ≠ pos := by omega
      simpa [hip, hne, hpc'] using this
    · by_cases hppos : p = pos
      -- it is the smaller child, so its sibling is not before it
      · simpa [hip, hic, hppos] using hmin i hi (hppos ▸ hpi)
      · simpa [hip, hic, hppos, hpc'] using h.off p i hp hi hsp hpi hip hppos
  · intro g i hg hi _ hgc hci
    simp only [Array.size_swap] at hg hi
    have hci' := hci.lt
    have hgp : g = pos := hgc.unique hpc
    rw [Array.getElem_swap, Array.getElem_swap]
    have := h.off c i hc hi (hstart.trans hlt.le) hci (by omega) (by omega)
    have h1 : i ≠ pos := by omega
    simpa [hgp, h1, hci'.ne'] using this

theorem smallerChild_isParent (heap : Array α) (pos : Nat) :
    IsParent pos (smallerChild key heap pos) := by
  unfold smallerChild IsParent
  split
  · split <;> omega
  · omega

theorem smallerChild_le {pos : Nat} (hc : smallerChild key heap pos < heap.size)
    (i : Nat) (hi : i < heap.size) (hpi : IsParent pos i) :
    key heap[smallerChild key heap pos] ≤ key heap[i] := by
  unfold smallerChild at hc ⊢
  split
  · rename_i h2
    split
    · rename_i hlt
      rcases hpi.child with rfl | rfl
      · exact le_refl _
      · exact hlt.le
    · rename_i hge
      rcases hpi.child with rfl | rfl
      · exact not_lt.1 hge
      · exact le_refl _
  · rename_i h2
    rcases hpi.child with rfl | rfl
    · exact le_refl _
    · exact absurd hi h2

theorem DownOrdered.upOrdered {startpos : Nat} {pos : Nat} (h : DownOrdered key startpos heap pos)
    (hleaf : heap.size ≤ 2 * pos + 1) : UpOrdered key startpos heap pos where
  off := by
    intro p i hp hi hsp hpi hne
    refine h.off p i hp hi hsp hpi hne ?_
    rintro rfl
    rcases hpi.child with rfl | rfl <;> omega
  grand := h.grand

theorem sink_upOrdered (startpos fuel : Nat) (heap : Array α) (pos : Nat) (hf : heap.size ≤ fuel + pos)
    (hbelow : Below startpos pos) (h : DownOrdered key startpos heap pos) :
    UpOrdered key startpos (sink key fuel heap pos).1 (sink key fuel heap pos).2 ∧
      Below startpos (sink key fuel heap pos).2 := by
  induction fuel generalizing heap pos with
  | zero => exact ⟨h.upOrdered (by omega), hbelow⟩
  | succ fuel ih =>
    have hpar : IsParent pos (smallerChild key heap pos) := smallerChild_isParent heap pos
    have hlt := hpar.lt
    unfold sink
    split
    · rename_i hb
      refine ih _ _ ?_ (hbelow.child hpar) (h.swap hb.2 hb.1 hbelow.le hpar (smallerChild_le hb.1))
      rw [Array.size_swap]
      omega
    · rename_i hb
      -- no child is inside the array, so `pos` is a leaf
      refine ⟨h.upOrdered ?_, hbelow⟩
      by_contra hchild
      refine hb ⟨?_, by omega⟩
      unfold smallerChild
      split
      · split <;> omega
      · omega

theorem sink_lt {fuel : Nat} {pos : Nat} (h : pos < heap.size) :
    (sink key fuel heap pos).2 < heap.size := by
  induction fuel generalizing heap pos with
  | zero => exact h
  | succ fuel ih =>
    unfold sink
    split
    · rename_i hb
      have hlt := @ih (heap.swap pos (smallerChild key heap pos)) (smallerChild key heap pos)
        (by rw [Array.size_swap]; exact hb.1)
      rwa [Array.size_swap] at hlt
    · exact h

/-! ## `heapify` -/

theorem siftup_ordered {pos : Nat} (hpos : pos < heap.size) (h : OrderedFrom key (pos + 1) heap) :
    OrderedFrom key pos (siftup key heap pos) := by
  have hdown : DownOrdered key pos heap pos := by
    refine ⟨fun p i hp hi hsp hpi _ hne => h p i hp hi (by omega) hpi, fun g i _ _ hsg hgp _ => ?_⟩
    -- the parent of `pos` is before it
    exact absurd hgp.lt (by omega)
  rcases sink_upOrdered pos heap.size heap pos (by omega) Below.refl hdown with ⟨hup, hbelow⟩
  exact siftdownFrom_ordered _ _ _ _ (sink_lt hpos).le hbelow hup

theorem heapifyFrom_ordered (pos : Nat) (heap : Array α) (hpos : pos ≤ heap.size)
    (h : OrderedFrom key pos heap) :
    Ordered key (heapifyFrom key pos heap) := by
  induction pos generalizing heap with
  | zero => exact orderedFrom_zero.1 h
  | succ pos ih =>
    have hsize := (siftup_perm key heap pos).size_eq
    exact ih _ (by omega) (siftup_ordered hpos h)

theorem heapify_ordered (heap : Array α) : Ordered key (heapify key heap) := by
  refine heapifyFrom_ordered _ _ (Nat.div_le_self _ _) fun p i _ hi hsp hpi => ?_
  -- nothing in the second half has children
  rcases hpi.child with rfl | rfl <;> omega

/-! ## `heappush` and `heappop` -/

theorem heappush_ordered (h : Ordered key heap) (item : α) :
    Ordered key (heappush key heap item) := by
  unfold heappush
  rw [siftdown_eq]
  refine orderedFrom_zero.1 (siftdownFrom_ordered _ _ _ _ (le_refl _) (below_zero _) ⟨?_, ?_⟩)
  · intro p i hp hi _ hpi hne
    have hlt := hpi.lt
    rw [Array.size_push] at hp hi
    have hi' : i < heap.size := by omega
    have hp' : p < heap.size := by omega
    simpa [Array.getElem_push, hi', hp'] using h p i hp' hi' hpi
  -- the new last position has no children
  · intro g i hg hi _ _ hpi
    have hlt := hpi.lt
    rw [Array.size_push] at hi
    omega

/-- Moving the last item to the root and the root out of the heap loses nothing. -/
theorem set_push_perm (ys : Array α) (last : α) (h0 : 0 < ys.size) :
    ((ys.set 0 last).push ys[0]).Perm (ys.push last) := by
  have hswap : (ys.set 0 last).push ys[0] =
      (ys.push last).swap 0 ys.size (by simp) (by simp) := by
    apply Array.ext
    · simp
    · intro i h₁ h₂
      rw [Array.getElem_swap]
      grind
  rw [hswap]
  exact Array.swap_perm _ _

theorem heappop_eq_none_iff : heappop key heap = none ↔ heap = #[] := by
  unfold heappop
  cases hb : heap.back? with
  | none =>
    simpa using Array.back?_eq_none_iff.1 hb
  | some last =>
    have hne : heap ≠ #[] := by
      rintro rfl
      simp at hb
    dsimp only
    split <;> simp [hne]

/-- `heappop` on a heap removes an item that no stored item precedes, and leaves a heap of the
others. -/
theorem heappop_spec {heap rest : Array α} {x : α} (h : Ordered key heap)
    (hpop : heappop key heap = some (x, rest)) :
    Ordered key rest ∧ (rest.push x).Perm heap ∧ ∀ y ∈ heap, key x ≤ key y := by
  unfold heappop at hpop
  cases hb : heap.back? with
  | none => simp [hb] at hpop
  | some last =>
    rcases Array.back?_eq_some_iff.1 hb with ⟨ys, rfl⟩
    have hys : Ordered key ys := by
      intro p i hp hi hpi
      have hle := h p i (by rw [Array.size_push]; omega) (by rw [Array.size_push]; omega) hpi
      rwa [Array.getElem_push_lt hp, Array.getElem_push_lt hi] at hle
    simp only [hb, Array.pop_push] at hpop
    split at hpop
    · rename_i h0
      cases hpop
      -- only the root may be out of order
      have hdown : DownOrdered key 0 (ys.set 0 last) 0 := by
        refine ⟨?_, ?_⟩
        · intro p i hp hi _ hpi hi0 hp0
          rw [Array.size_set] at hp hi
          simpa [Array.getElem_set, hi0.symm, hp0.symm] using hys p i hp hi hpi
        · intro g i _ _ _ hg _
          exact absurd hg.1 (by simp)
      rcases sink_upOrdered 0 (ys.push last).size (ys.set 0 last) 0 (by simp) Below.refl hdown with
        ⟨hup, hbelow⟩
      refine ⟨?_, ?_, ?_⟩
      · rw [siftdown_eq]
        exact orderedFrom_zero.1 (siftdownFrom_ordered _ _ _ _ (le_refl _) hbelow hup)
      · have hsink := sink_perm key (ys.push last).size (ys.set 0 last) 0
        exact (((siftdown_perm key _ _ _).trans hsink).push _).trans (set_push_perm ys last h0)
      · intro y hy
        rcases Array.mem_iff_getElem.1 hy with ⟨i, hi, rfl⟩
        -- what is returned was the root of the old heap
        simpa [Array.getElem_push, h0] using h.root_le (by simp) i hi
    · rename_i h0
      simp only [Option.some.injEq, Prod.mk.injEq] at hpop
      rcases hpop with ⟨rfl, rfl⟩
      have hnil : ys = #[] := by
        apply Array.eq_empty_of_size_eq_zero
        omega
      subst hnil
      refine ⟨?_, Array.Perm.refl _, by simp⟩
      intro p i hp
      simp at hp

/-! ## Comparisons that raise -/

namespace Raising

variable (key) (comparable : α → α → Bool)

/-- `_siftdown(heap, 0, pos)`; an error is the array that a comparison which raises leaves
behind. -/
def siftdown : Nat → Array α → Nat → Except (Array α) (Array α)
  | 0, heap, _ => .ok heap
  | fuel + 1, heap, pos =>
    if h : 0 < pos ∧ pos < heap.size then
      if comparable heap[pos] heap[(pos - 1) / 2] = false then
        .error heap
      else if key heap[pos] < key heap[(pos - 1) / 2] then
        siftdown fuel (heap.swap pos ((pos - 1) / 2)) ((pos - 1) / 2)
      else
        .ok heap
    else
      .ok heap

/-- The children of `pos` can be compared, if there are two. -/
def childrenCompare (heap : Array α) (pos : Nat) : Bool :=
  if h : 2 * pos + 2 < heap.size then comparable heap[2 * pos + 1] heap[2 * pos + 2] else true

/-- The loop of `_siftup(heap, 0)` -/
def sink : Nat → Array α → Nat → Except (Array α) (Array α × Nat)
  | 0, heap, pos => .ok (heap, pos)
  | fuel + 1, heap, pos =>
    if h : smallerChild key heap pos < heap.size ∧ pos < heap.size then
      if childrenCompare comparable heap pos = false then
        .error heap
      else
        sink fuel (heap.swap pos (smallerChild key heap pos)) (smallerChild key heap pos)
    else
      .ok (heap, pos)

def heappush (heap : Array α) (item : α) : Except (Array α) (Array α) :=
  siftdown key comparable heap.size (heap.push item) heap.size

def heappop (heap : Array α) : Option (Except (Array α) (α × Array α)) :=
  match heap.back? with
  | none => none
  | some lastelt =>
    if h : 0 < heap.pop.size then
      -- what is to be returned has left the array before the first comparison
      some (match sink key comparable heap.size (heap.pop.set 0 lastelt) 0 with
        | .error left => .error left
        | .ok moved => (siftdown key comparable moved.2 moved.1 moved.2).map (heap.pop[0], ·))
    else
      some (.ok (lastelt, heap.pop))

theorem siftdown_cases (fuel : Nat) (heap : Array α) (pos : Nat) :
    siftdown key comparable fuel heap pos = .ok (Heapq.siftdown key fuel heap pos) ∨
      ∃ left x y, siftdown key comparable fuel heap pos = .error left ∧ comparable x y = false := by
  induction fuel generalizing heap pos with
  | zero => exact .inl rfl
  | succ fuel ih =>
    unfold siftdown Heapq.siftdown
    split
    · split
      · rename_i hraises
        exact .inr ⟨_, _, _, rfl, hraises⟩
      · split
        · exact ih _ _
        · exact .inl rfl
    · exact .inl rfl

theorem sink_cases (fuel : Nat) (heap : Array α) (pos : Nat) :
    sink key comparable fuel heap pos = .ok (Heapq.sink key fuel heap pos) ∨
      ∃ left x y, sink key comparable fuel heap pos = .error left ∧ comparable x y = false := by
  induction fuel generalizing heap pos with
  | zero => exact .inl rfl
  | succ fuel ih =>
    unfold sink Heapq.sink
    split
    · split
      · rename_i hraises
        unfold childrenCompare at hraises
        split at hraises
        · exact .inr ⟨_, _, _, rfl, hraises⟩
        · cases hraises
      · exact ih _ _
    · exact .inl rfl

/-- `heappush` does what it does on comparable items, or raises. -/
theorem heappush_cases (heap : Array α) (item : α) :
    heappush key comparable heap item = .ok (Heapq.heappush key heap item) ∨
      ∃ left x y, heappush key comparable heap item = .error left ∧ comparable x y = false :=
  siftdown_cases key comparable _ _ _

/-- `heappop` does what it does on comparable items, or raises. -/
theorem heappop_cases (heap : Array α) :
    heappop key comparable heap = (Heapq.heappop key heap).map .ok ∨
      ∃ left x y, heappop key comparable heap = some (.error left) ∧ comparable x y = false := by
  unfold heappop Heapq.heappop
  cases heap.back? with
  | none => exact .inl rfl
  | some lastelt =>
    dsimp only
    split
    · rcases sink_cases key comparable heap.size (heap.pop.set 0 lastelt) 0 with
        hsink | ⟨left, x, y, hsink, hxy⟩
      · rw [hsink]
        dsimp only
        rcases siftdown_cases key comparable _ _ _ with hup | ⟨left, x, y, hup, hxy⟩
        · exact .inl (by rw [hup]; rfl)
        · exact .inr ⟨left, x, y, by rw [hup]; rfl, hxy⟩
      · exact .inr ⟨left, x, y, by rw [hsink], hxy⟩
    · exact .inl rfl

end Raising

end Lib.Heapq
