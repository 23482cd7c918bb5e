import Cotamer.TimerHeap

/-! What the sifts keep. The comparison of two entries need not be transitive; the
order here is any that it agrees with on the entries of the heap. The sift down
needs children whose positions do not wrap. -/
namespace Cotamer.TimerHeap

variable {α : Type} {le : Element α → Element α → Prop} {es : Array (Element α)} {x y z : Element α}
  {pos i fuel : Nat}

theorem parent_lt (positive : 0 < i) : heapParent i < i := by
  rw [heapParent, arity]
  omega

/-- The children the loops look at are those of `heapParent`, as long as none wraps. -/
theorem mem_children {size : Nat} (small : size ≤ 2 ^ 30) (bound : pos < size) (t : Nat) :
    t ∈ List.range' (heapFirstChild pos) (heapLastChild size pos - heapFirstChild pos) ↔
      0 < t ∧ heapParent t = pos ∧ t < size := by
  rw [List.mem_range'_1, heapFirstChild, heapLastChild, heapParent, arity]
  split <;> omega

theorem getElem?_swap (first : i < es.size) (second : pos < es.size) (k : Nat) :
    (es.swapIfInBounds i pos)[k]? = if k = i then es[pos]? else if k = pos then es[i]? else es[k]? := by
  rw [Array.swapIfInBounds_def, dif_pos first, dif_pos second, Array.getElem?_swap]
  simp only [eq_comm (b := k), Array.getElem?_eq_getElem first, Array.getElem?_eq_getElem second]
  by_cases same : k = pos
  · subst same
    by_cases both : k = i
    · subst both
      simp
    · simp [both]
  · simp [same]

theorem mem_swap (i pos : Nat) (x : Element α) : x ∈ es.swapIfInBounds i pos ↔ x ∈ es := by
  rw [← Array.mem_toList_iff, ← Array.mem_toList_iff]
  exact (swapIfInBounds_perm es i pos).mem_iff

/-- The comparison of entries decides the order. -/
def Agrees (le : Element α → Element α → Prop) (es : Array (Element α)) : Prop :=
  ∀ x ∈ es, ∀ y ∈ es, (x.lt y = true → le x y) ∧ (x.lt y = false → le y x)

theorem Agrees.mono {es' : Array (Element α)} (agrees : Agrees le es) (sub : ∀ x ∈ es', x ∈ es) :
    Agrees le es' :=
  fun x inside y inside' => agrees x (sub x inside) y (sub y inside')

theorem Agrees.swap (agrees : Agrees le es) (i pos : Nat) : Agrees le (es.swapIfInBounds i pos) :=
  agrees.mono fun x => (mem_swap i pos x).mp

theorem before_some (first : es[i]? = some x) (second : es[pos]? = some y) :
    before es i pos = x.lt y := by
  rw [before, first, second]

theorem Agrees.before (agrees : Agrees le es) (first : es[i]? = some x) (second : es[pos]? = some y) :
    (before es i pos = true → le x y) ∧ (before es i pos = false → le y x) := by
  rw [before_some first second]
  exact agrees x (Array.mem_of_getElem? first) y (Array.mem_of_getElem? second)

/-- Parents come before their children, apart from some. -/
def OrderedBut (le : Element α → Element α → Prop) (es : Array (Element α)) (skip : Nat → Prop) : Prop :=
  ∀ i x y, 0 < i → ¬skip i → es[i]? = some x → es[heapParent i]? = some y → le y x

/-- The parent of `pos` comes before the children of `pos`. -/
def Grand (le : Element α → Element α → Prop) (es : Array (Element α)) (pos : Nat) : Prop :=
  0 < pos → ∀ i x y, 0 < i → heapParent i = pos → es[i]? = some x → es[heapParent pos]? = some y → le y x

abbrev Ordered (le : Element α → Element α → Prop) (es : Array (Element α)) : Prop :=
  OrderedBut le es fun _ => False

variable [IsPreorder (Element α) le]

/-- One swap of `siftUp`. -/
theorem up_swap (positive : 0 < pos) (bound : pos < es.size) (agrees : Agrees le es)
    (smaller : before es pos (heapParent pos) = true)
    (ordered : OrderedBut le es (· = pos)) (grand : Grand le es pos) :
    OrderedBut le (es.swapIfInBounds pos (heapParent pos)) (· = heapParent pos) ∧
      Grand le (es.swapIfInBounds pos (heapParent pos)) (heapParent pos) := by
  have less := parent_lt positive
  have above := Nat.lt_trans less bound
  obtain ⟨a, here⟩ : ∃ a, es[pos]? = some a := ⟨_, Array.getElem?_eq_getElem bound⟩
  obtain ⟨b, there⟩ : ∃ b, es[heapParent pos]? = some b := ⟨_, Array.getElem?_eq_getElem above⟩
  have first : le a b := (agrees.before here there).1 smaller
  have swap := getElem?_swap bound above
  constructor
  · intro i x y positive' other inside parent
    rw [swap] at inside parent
    rw [if_neg other] at inside
    by_cases same : i = pos
    · subst same
      rw [if_pos rfl, there] at inside
      rw [if_neg (Nat.ne_of_lt less), if_pos rfl, here] at parent
      cases inside
      cases parent
      exact first
    · rw [if_neg same] at inside
      by_cases child : heapParent i = pos
      · rw [if_pos child] at parent
        exact grand positive i x y positive' child inside parent
      · rw [if_neg child] at parent
        by_cases sibling : heapParent i = heapParent pos
        · rw [if_pos sibling, here] at parent
          cases parent
          rw [← sibling] at there
          exact trans_of le first (ordered i x _ positive' same inside there)
        · rw [if_neg sibling] at parent
          exact ordered i x y positive' same inside parent
  · intro upper i x y positive' child inside parent
    have higher := parent_lt upper
    rw [swap] at inside parent
    rw [if_neg (Nat.ne_of_lt (Nat.lt_trans higher less)), if_neg (Nat.ne_of_lt higher)] at parent
    have next : le y b := ordered _ _ y upper (Nat.ne_of_lt less) there parent
    by_cases same : i = pos
    · rw [if_pos same, there] at inside
      cases inside
      exact next
    · have other : i ≠ heapParent pos := by
        rintro rfl
        exact absurd child (Nat.ne_of_lt higher)
      rw [if_neg same, if_neg other] at inside
      rw [← child] at there
      exact trans_of le next (ordered i x _ positive' same inside there)

theorem siftUp_ordered (agrees : Agrees le es) (bound : pos < es.size) (enough : pos ≤ fuel)
    (ordered : OrderedBut le es (· = pos)) (grand : Grand le es pos) :
    Ordered le (siftUp fuel pos es) := by
  induction fuel generalizing pos es with
  | zero =>
      cases Nat.le_zero.mp enough
      exact fun i x y positive _ => ordered i x y positive (Nat.ne_of_gt positive)
  | succ fuel ih =>
      rw [siftUp]
      split
      · rename_i up
        have positive := Nat.pos_of_ne_zero up.1
        have less := parent_lt positive
        obtain ⟨ordered', grand'⟩ := up_swap positive bound agrees up.2 ordered grand
        apply ih (agrees.swap _ _) _ _ ordered' grand'
        · rw [Array.size_swapIfInBounds]
          exact Nat.lt_trans less bound
        · omega
      · rename_i stop
        intro i x y positive _ inside parent
        by_cases same : i = pos
        · subst same
          have larger : before es i (heapParent i) = false := by
            simpa [Nat.ne_of_gt positive] using stop
          exact (agrees.before inside parent).2 larger
        · exact ordered i x y positive same inside parent

/-- The search for the least entry among those at `pos` and `ts`. -/
theorem least_spec (agrees : Agrees le es) (ts : List Nat) (bounds : ∀ t ∈ pos :: ts, t < es.size) :
    ts.foldl (fun best t => if before es t best then t else best) pos ∈ pos :: ts ∧
      ∀ t ∈ pos :: ts, ∀ x y, es[t]? = some x →
        es[ts.foldl (fun best t => if before es t best then t else best) pos]? = some y → le y x := by
  induction ts generalizing pos with
  | nil =>
      refine ⟨List.mem_singleton_self pos, fun t member x y inside here => ?_⟩
      cases List.mem_singleton.mp member
      cases inside.symm.trans here
      exact refl_of le x
  | cons t ts ih =>
      rw [List.foldl_cons]
      obtain ⟨here, tail⟩ := List.forall_mem_cons.mp bounds
      obtain ⟨there, rest⟩ := List.forall_mem_cons.mp tail
      -- the better of the first two is at most both of them
      have better : ∀ k ∈ [pos, t], ∀ x y, es[k]? = some x →
          es[if before es t pos = true then t else pos]? = some y → le y x := by
        obtain ⟨a, first⟩ : ∃ a, es[pos]? = some a := ⟨_, Array.getElem?_eq_getElem here⟩
        obtain ⟨b, second⟩ : ∃ b, es[t]? = some b := ⟨_, Array.getElem?_eq_getElem there⟩
        have both := agrees.before second first
        cases smaller : before es t pos with
        | true => simp [first, second, both.1 smaller, refl_of le b]
        | false => simp [first, second, both.2 smaller, refl_of le a]
      generalize chosen : (if before es t pos = true then t else pos) = best at better
      have known : best = pos ∨ best = t := by
        rw [← chosen]
        split
        · exact .inr rfl
        · exact .inl rfl
      have inside : best < es.size := by
        rcases known with rfl | rfl
        · exact here
        · exact there
      obtain ⟨member, least⟩ := ih (List.forall_mem_cons.mpr ⟨inside, rest⟩)
      obtain ⟨z, middle⟩ : ∃ z, es[best]? = some z := ⟨_, Array.getElem?_eq_getElem inside⟩
      constructor
      · rcases List.mem_cons.mp member with same | later
        · rw [same]
          rcases known with rfl | rfl
          · exact List.mem_cons_self
          · exact List.mem_cons_of_mem _ List.mem_cons_self
        · exact List.mem_cons_of_mem _ (List.mem_cons_of_mem _ later)
      · intro k k_mem x y at_k at_least
        by_cases early : k ∈ [pos, t]
        · exact trans_of le (least best List.mem_cons_self z y middle at_least)
            (better k early x z at_k middle)
        · have later : k ∈ ts := by simp_all
          exact least k (List.mem_cons_of_mem _ later) x y at_k at_least

theorem smallest_spec (agrees : Agrees le es) (small : es.size ≤ 2 ^ 30) (bound : pos < es.size) :
    (smallest es pos = pos ∨
        0 < smallest es pos ∧ heapParent (smallest es pos) = pos ∧ smallest es pos < es.size) ∧
      ∀ t x y, t = pos ∨ 0 < t ∧ heapParent t = pos → es[t]? = some x →
        es[smallest es pos]? = some y → le y x := by
  have bounds : ∀ t ∈ pos :: List.range' (heapFirstChild pos)
      (heapLastChild es.size pos - heapFirstChild pos), t < es.size := by
    rw [List.forall_mem_cons]
    exact ⟨bound, fun t child => ((mem_children small bound t).mp child).2.2⟩
  obtain ⟨member, least⟩ := least_spec agrees _ bounds
  constructor
  · rcases List.mem_cons.mp member with same | child
    · exact .inl same
    · exact .inr ((mem_children small bound _).mp child)
  · intro t x y near inside here
    refine least t ?_ x y inside here
    rcases near with rfl | ⟨positive, child⟩
    · exact List.mem_cons_self
    · have inBounds := (Array.getElem?_eq_some_iff.mp inside).1
      exact List.mem_cons_of_mem _ ((mem_children small bound t).mpr ⟨positive, child, inBounds⟩)

omit [IsPreorder (Element α) le] in
/-- One swap of `siftDown`. -/
theorem down_swap {c : Nat} (bound : pos < es.size) (positive : 0 < c) (child : heapParent c = pos)
    (inside : c < es.size)
    (least : ∀ t x y, t = pos ∨ 0 < t ∧ heapParent t = pos → es[t]? = some x → es[c]? = some y → le y x)
    (ordered : OrderedBut le es fun i => heapParent i = pos) (grand : Grand le es pos) :
    OrderedBut le (es.swapIfInBounds pos c) (fun i => heapParent i = c) ∧
      Grand le (es.swapIfInBounds pos c) c := by
  have lower : pos < c := child ▸ parent_lt positive
  obtain ⟨a, here⟩ : ∃ a, es[pos]? = some a := ⟨_, Array.getElem?_eq_getElem bound⟩
  obtain ⟨b, there⟩ : ∃ b, es[c]? = some b := ⟨_, Array.getElem?_eq_getElem inside⟩
  have swap := getElem?_swap bound inside
  constructor
  · intro i x y positive' other at_i at_parent
    have less := parent_lt positive'
    rw [swap] at at_i at_parent
    rw [if_neg other] at at_parent
    by_cases same : i = pos
    · subst same
      rw [if_pos rfl, there] at at_i
      rw [if_neg (Nat.ne_of_lt less)] at at_parent
      cases at_i
      exact grand positive' c b y positive child there at_parent
    · rw [if_neg same] at at_i
      by_cases sibling : heapParent i = pos
      · rw [if_pos sibling, there] at at_parent
        cases at_parent
        by_cases self : i = c
        · rw [if_pos self, here] at at_i
          cases at_i
          exact least pos a b (.inl rfl) here there
        · rw [if_neg self] at at_i
          exact least i x b (.inr ⟨positive', sibling⟩) at_i there
      · have self : i ≠ c := by
          rintro rfl
          exact sibling child
        rw [if_neg sibling] at at_parent
        rw [if_neg self] at at_i
        exact ordered i x y positive' sibling at_i at_parent
  · intro _ i x y positive' below at_i at_parent
    have less := parent_lt positive'
    rw [swap] at at_i at_parent
    rw [child, if_pos rfl, there] at at_parent
    cases at_parent
    have deeper : c < i := below ▸ less
    rw [if_neg (Nat.ne_of_gt (Nat.lt_trans lower deeper)), if_neg (Nat.ne_of_gt deeper)] at at_i
    have apart : heapParent i ≠ pos := by
      rw [below]
      exact Nat.ne_of_gt lower
    exact ordered i x b positive' apart at_i (below ▸ there)

theorem siftDown_ordered (agrees : Agrees le es) (small : es.size ≤ 2 ^ 30) (bound : pos < es.size)
    (enough : es.size ≤ pos + fuel) (ordered : OrderedBut le es fun i => heapParent i = pos) (grand : Grand le es pos) :
    Ordered le (siftDown fuel pos es) := by
  induction fuel generalizing pos es with
  | zero => omega
  | succ fuel ih =>
      obtain ⟨place, least⟩ := smallest_spec agrees small bound
      rw [siftDown]
      split
      · rename_i same
        intro i x y positive _ inside parent
        by_cases child : heapParent i = pos
        · refine least i x y (.inr ⟨positive, child⟩) inside ?_
          rw [same, ← child]
          exact parent
        · exact ordered i x y positive child inside parent
      · rename_i other
        obtain ⟨positive, child, inside⟩ := place.resolve_left other
        have lower := parent_lt positive
        rw [child] at lower
        obtain ⟨ordered', grand'⟩ := down_swap bound positive child inside least ordered grand
        apply ih (agrees.swap _ _) _ _ _ ordered' grand'
        · rwa [Array.size_swapIfInBounds]
        · rwa [Array.size_swapIfInBounds]
        · rw [Array.size_swapIfInBounds]
          omega

omit [IsPreorder (Element α) le] in
theorem Ordered.pop (ordered : Ordered le es) : Ordered le es.pop := by
  intro i x y positive skip inside parent
  rw [Array.getElem?_pop] at inside parent
  split at inside
  · split at parent
    · exact ordered i x y positive skip inside parent
    · contradiction
  · contradiction

/-- The last entry in the place of the one at `pos`. -/
theorem getElem?_replaced (bound : pos + 1 < es.size) (i : Nat) :
    (es.swapIfInBounds (es.size - 1) pos).pop[i]? =
      if i = es.size - 1 then none else if i = pos then es[es.size - 1]? else es[i]? := by
  have first : es.size - 1 < es.size := by omega
  have second : pos < es.size := by omega
  rw [Array.getElem?_pop, Array.size_swapIfInBounds, getElem?_swap first second]
  by_cases last : i = es.size - 1
  · simp [last]
  · rw [if_neg last, if_neg last]
    split
    · rfl
    · have beyond : es.size ≤ i := by omega
      rw [if_neg (by omega), Array.getElem?_eq_none beyond]

/-- Without its last entry the heap has no position whose children wrap. -/
def Indexed (h : TimerHeap α) : Prop := h.es.size ≤ 2 ^ 30 + 1

instance (h : TimerHeap α) : Decidable h.Indexed := inferInstanceAs (Decidable (_ ≤ _))

/-- Removing an entry keeps the order. -/
theorem hardCull_ordered {h : TimerHeap α} (agrees : Agrees le h.es) (ordered : Ordered le h.es)
    (small : h.Indexed) (bound : pos < h.es.size) : Ordered le (h.hardCull pos).es := by
  obtain ⟨es, order, cullRand⟩ := h
  simp only [Indexed] at agrees ordered bound small
  rw [hardCull]
  simp only
  split
  · exact ordered.pop
  · rename_i inner
    have bound' : pos + 1 < es.size := by omega
    have at_i := getElem?_replaced bound'
    have size : (es.swapIfInBounds (es.size - 1) pos).pop.size = es.size - 1 := by
      rw [Array.size_pop, Array.size_swapIfInBounds]
    have agrees' : Agrees le (es.swapIfInBounds (es.size - 1) pos).pop := by
      refine (agrees.swap (es.size - 1) pos).mono fun x member => ?_
      rw [← Array.mem_toList_iff, Array.toList_pop] at member
      exact Array.mem_toList_iff.mp (List.dropLast_subset _ member)
    generalize (es.swapIfInBounds (es.size - 1) pos).pop = fs at at_i size agrees'
    -- away from `pos` everything is where it was
    have away : ∀ i x, i ≠ pos → fs[i]? = some x → es[i]? = some x := by
      intro i x other inside
      rw [at_i, if_neg other] at inside
      split at inside
      · contradiction
      · exact inside
    obtain ⟨old, there⟩ : ∃ old, es[pos]? = some old := ⟨_, Array.getElem?_eq_getElem bound⟩
    have grand : Grand le fs pos := by
      intro positive i x y positive' child inside parent
      have deeper := parent_lt positive'
      have x_at := away i x (Nat.ne_of_gt (child ▸ deeper)) inside
      have y_at := away _ y (Nat.ne_of_lt (parent_lt positive)) parent
      exact trans_of le (ordered pos old y positive id there y_at)
        (ordered i x old positive' id x_at (child ▸ there))
    split
    · rename_i down
      apply siftDown_ordered agrees' (by omega) (by omega) (by omega) _ grand
      intro i x y positive other inside parent
      have y_at := away _ y other parent
      by_cases same : i = pos
      · subst same
        have larger : before fs i (heapParent i) = false := by
          simpa [Nat.ne_of_gt positive] using down
        exact (agrees'.before inside parent).2 larger
      · exact ordered i x y positive id (away i x same inside) y_at
    · rename_i up
      obtain ⟨nonzero, smaller⟩ : ¬pos = 0 ∧ before fs pos (heapParent pos) = true := by simpa using up
      have above := parent_lt (Nat.pos_of_ne_zero nonzero)
      apply siftUp_ordered agrees' (by omega) (by omega) _ grand
      intro i x y positive other inside parent
      by_cases child : heapParent i = pos
      · obtain ⟨a, here⟩ : ∃ a, fs[heapParent pos]? = some a :=
          ⟨_, Array.getElem?_eq_getElem (by omega)⟩
        rw [child] at parent
        exact trans_of le ((agrees'.before parent here).1 smaller)
          (grand (Nat.pos_of_ne_zero nonzero) i x a positive child inside here)
      · exact ordered i x y positive id (away i x other inside) (away _ y child parent)

/-- A new last entry is sifted to its place. -/
theorem push_ordered (x : Element α) (agrees : Agrees le (es.push x)) (ordered : Ordered le es) :
    Ordered le (siftUp (es.push x).size ((es.push x).size - 1) (es.push x)) := by
  have size : (es.push x).size = es.size + 1 := Array.size_push x
  apply siftUp_ordered agrees (by omega) (by omega)
  · intro i y z positive other inside parent
    have bound := (Array.getElem?_eq_some_iff.mp inside).1
    have less := parent_lt positive
    have inner : i ≠ es.size := by omega
    have above : heapParent i ≠ es.size := by omega
    rw [Array.getElem?_push, if_neg inner] at inside
    rw [Array.getElem?_push, if_neg above] at parent
    exact ordered i y z positive id inside parent
  · intro _ i y z positive child inside _
    have bound := (Array.getElem?_eq_some_iff.mp inside).1
    have less := parent_lt positive
    omega

/-- The top comes before every entry. -/
theorem top_le (ordered : Ordered le es) (top : es[0]? = some x) (inside : es[i]? = some y) : le x y := by
  induction i using Nat.strongRecOn generalizing y with
  | ind i ih =>
      rcases Nat.eq_zero_or_pos i with rfl | positive
      · cases top.symm.trans inside
        exact refl_of le x
      · have less := parent_lt positive
        have bound := (Array.getElem?_eq_some_iff.mp inside).1
        obtain ⟨z, parent⟩ : ∃ z, es[heapParent i]? = some z :=
          ⟨_, Array.getElem?_eq_getElem (Nat.lt_trans less bound)⟩
        exact trans_of le (ih _ less parent) (ordered i y z positive id inside parent)

/-! The operations of the heap. -/

/-- A heap whose entries are those of another, apart from some. -/
structure Shrunk (le : Element α → Element α → Prop) (h h' : TimerHeap α) : Prop where
  ordered : h.Indexed → Ordered le h.es → Agrees le h.es → Ordered le h'.es
  sub : ∀ x ∈ h'.es, x ∈ h.es
  size : h'.es.size ≤ h.es.size
  order : h'.order = h.order

@[simp]
theorem hardCull_order (h : TimerHeap α) (pos : Nat) : (h.hardCull pos).order = h.order := by
  unfold hardCull
  split
  · rfl
  · dsimp only
    split <;> rfl

omit [IsPreorder (Element α) le] in
theorem Shrunk.refl (h : TimerHeap α) : Shrunk le h h :=
  ⟨fun _ ordered _ => ordered, fun _ member => member, Nat.le_refl _, rfl⟩

omit [IsPreorder (Element α) le] in
theorem Shrunk.trans {h h' h'' : TimerHeap α} (first : Shrunk le h h') (second : Shrunk le h' h'') :
    Shrunk le h h'' where
  ordered small ordered agrees := second.ordered (Nat.le_trans first.size small)
    (first.ordered small ordered agrees) (agrees.mono first.sub)
  sub x member := first.sub x (second.sub x member)
  size := Nat.le_trans second.size first.size
  order := second.order.trans first.order

theorem hardCull_shrunk (h : TimerHeap α) (bound : pos < h.es.size) : Shrunk le h (h.hardCull pos) where
  ordered small ordered agrees := hardCull_ordered agrees ordered small bound
  sub x member := by
    rw [← Array.mem_toList_iff] at member ⊢
    exact (hardCull_perm h pos bound).mem_iff.mpr (List.mem_cons_of_mem _ member)
  size := by
    have length := (hardCull_perm h pos bound).length_eq
    rw [List.length_cons, Array.length_toList, Array.length_toList] at length
    omega
  order := hardCull_order h pos

theorem cullTop_shrunk (empty : α → Bool) (fuel : Nat) (h : TimerHeap α) :
    Shrunk le h (cullTop empty fuel h).1 := by
  induction fuel generalizing h with
  | zero => exact .refl h
  | succ fuel ih =>
      unfold cullTop
      split
      · exact .refl h
      · rename_i v top
        split
        · obtain ⟨x, here, _⟩ := Option.map_eq_some_iff.mp top
          have bound := (Array.getElem?_eq_some_iff.mp here).1
          exact (hardCull_shrunk h bound).trans (ih h.pop)
        · exact .refl h

theorem cullRandom_shrunk (empty : α → Bool) (fuel : Nat) (h : TimerHeap α) :
    Shrunk le h (cullRandom empty fuel h).1 := by
  induction fuel generalizing h with
  | zero => exact .refl h
  | succ fuel ih =>
      unfold cullRandom
      split
      · exact .refl h
      · dsimp only
        generalize nextRand h.cullRand = rand
        generalize h.cullRand.toNat % h.es.size = pos
        have same : Shrunk le h { h with cullRand := rand } :=
          ⟨fun _ ordered _ => ordered, fun _ member => member, Nat.le_refl _, rfl⟩
        split
        · exact same
        · rename_i x here
          have bound := (Array.getElem?_eq_some_iff.mp here).1
          split
          · exact same.trans ((hardCull_shrunk { h with cullRand := rand } bound).trans (ih _))
          · exact same

theorem mem_siftUp (fuel pos : Nat) (es : Array (Element α)) (x : Element α) :
    x ∈ siftUp fuel pos es ↔ x ∈ es := by
  rw [← Array.mem_toList_iff, ← Array.mem_toList_iff]
  exact (siftUp_perm fuel pos es).mem_iff

/-- `cull` removes nothing when the entry at the top is not empty. -/
theorem cullTop_fresh (empty : α → Bool) (fuel : Nat) (h : TimerHeap α)
    (fresh : ¬∃ v ∈ h.top?, empty v = true) : (cullTop empty fuel h).1 = h := by
  cases fuel with
  | zero => rfl
  | succ fuel =>
      unfold cullTop
      cases top : h.top? with
      | none => rfl
      | some v =>
          have lives : empty v ≠ true := fun dead => fresh ⟨v, top, dead⟩
          simp only [if_neg lives]

/-- The random entry at which `emplace` looks is empty. -/
def Stale (empty : α → Bool) (h : TimerHeap α) : Prop :=
  32 ≤ h.es.size ∧ ∃ x ∈ h.es[h.cullRand.toNat % h.es.size]?, empty x.value = true

instance (empty : α → Bool) (h : TimerHeap α) : Decidable (h.Stale empty) :=
  inferInstanceAs (Decidable (_ ∧ _))

/-- Otherwise it removes nothing. -/
theorem cullRandom_fresh (empty : α → Bool) (fuel : Nat) (h : TimerHeap α) (fresh : ¬h.Stale empty) :
    (cullRandom empty fuel h).1.es = h.es := by
  cases fuel with
  | zero => rfl
  | succ fuel =>
      obtain ⟨es, order, cullRand⟩ := h
      rw [Stale] at fresh
      unfold cullRandom
      dsimp only at fresh ⊢
      by_cases small : es.size < 32
      · rw [if_pos small]
      · rw [if_neg small]
        cases here : es[cullRand.toNat % es.size]? with
        | none => rfl
        | some x =>
            have lives : empty x.value ≠ true := fun dead =>
              fresh ⟨Nat.le_of_not_lt small, x, here, dead⟩
            simp only [if_neg lives]

/-- `emplace` keeps the order when the comparison agrees with it before and after. -/
theorem emplace_ordered {h : TimerHeap α} {empty : α → Bool} {time : Int} {v : α} (agrees : Agrees le h.es)
    (agrees' : Agrees le (h.emplace empty time v).1.es) (small : h.Stale empty → h.Indexed)
    (ordered : Ordered le h.es) : Ordered le (h.emplace empty time v).1.es := by
  have culled : Ordered le (cullRandom empty h.es.size h).1.es := by
    by_cases stale : h.Stale empty
    · exact (cullRandom_shrunk empty h.es.size h).ordered (small stale) ordered agrees
    · rwa [cullRandom_fresh empty h.es.size h stale]
  unfold emplace at agrees' ⊢
  dsimp only at agrees' ⊢
  exact push_ordered _ (agrees'.mono fun x member => (mem_siftUp _ _ _ x).mpr member) culled

end Cotamer.TimerHeap
