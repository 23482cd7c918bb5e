import Cotamer.Fd.Layout

/-! The functions of the watch table: each keeps the lists, and on what the lists
hold it does what `Fd.Watches` says. -/
namespace Cotamer.Fd.Table
open Links
open Watches (FdEvent Epoch FdUpdate Watch userEpoch)

theorem chain_ne (other : u ≠ ufd) : Owner.chain u ≠ .chain ufd := fun same => other (Owner.chain.inj same)

theorem chain_ne_free (ufd : Nat) : Owner.chain ufd ≠ .free := nofun

theorem drained_ne_free (i : Nat) : Owner.drained i ≠ .free := nofun

theorem drained_ne_chain (i ufd : Nat) : Owner.drained i ≠ .chain ufd := nofun

/-- The watch in a slot. -/
def watchOf (ws : List WatchRec) (wix : Nat) : Watch :=
  { ev := (slot ws wix).ev.getD 0, mask := (slot ws wix).mask }

/-- A record with its chain. -/
def recordOf (t : FdEventSet) (lay : Layout) (ufd : Nat) : Watches.FdRec where
  body := (t.fdr ufd).body
  epoch := (t.fdr ufd).epoch
  watches := (lay.held (.chain ufd)).map (watchOf t.ws)

def Layout.enqueue (lay : Layout) (ufd : Nat) : Layout :=
  { lay with queue := if ufd ∈ lay.queue then lay.queue else ufd :: lay.queue }

/-- The record when its chain is not empty any more and ends with `wix`. -/
def endsWith (fdi : FdRec) (wix : Nat) : FdRec :=
  { fdi with whead := if fdi.whead = linkClean then wix else fdi.whead, wtail := wix }

/-- The record when its chain begins at the link. -/
def startsAt (fdi : FdRec) (link : Nat) : FdRec := { fdi with whead := link }

/-- The record when its chain goes from one link to the other. -/
def setChain (fdi : FdRec) (whead wtail : Nat) : FdRec := { fdi with whead, wtail }

/-- The first slot of a list goes to the free list. -/
def freeSlot (t : FdEventSet) (wix : Nat) : FdEventSet :=
  { t with ws := setSlot t.ws wix { slot t.ws wix with ev := none, wlink := t.freeWlink }, freeWlink := wix }

def Layout.free (lay : Layout) (o : Owner) (wix : Nat) (rest : List Nat) : Layout :=
  { lay with held := Function.update (Function.update lay.held o rest) .free (wix :: lay.held .free) }

/-- The slots of a chain that `w` takes are on a list of their own. -/
def Layout.divide (lay : Layout) (ufd n : Nat) (w : Nat → Bool) : Layout :=
  let chain := lay.held (.chain ufd)
  { lay with held :=
      Function.update (Function.update lay.held (.chain ufd) (chain.filter (!w ·))) (.drained n) (chain.filter w) }

/-- What the watches wait for, those whose events are empty apart. -/
def maskOf (empty : Nat → Bool) (mask : FdEvent) (watches : List Watch) : FdEvent :=
  watches.foldl (fun mask w => if empty w.ev then mask else mask ||| w.mask) mask

/-- The epoch that the notifier is told. -/
def toldEpoch (mask : FdEvent) (epoch : Epoch) : Epoch :=
  if mask = 0 then epoch else if epoch < userEpoch then userEpoch else epoch

/-- The epoch of the record afterwards. -/
def keptEpoch (mask : FdEvent) (epoch : Epoch) : Epoch :=
  if mask = 0 then epoch + 1 else if epoch < userEpoch then userEpoch else epoch

namespace Lays

variable {t t' : FdEventSet} {heads : List Nat} {next ufd u : Nat} {lay : Layout} {fdi : FdRec}

/-- Links stay as they are. -/
theorem same (lays : Lays t heads next lay) (ws : t'.ws = t.ws) (freeWlink : t'.freeWlink = t.freeWlink)
    (updateLink : t'.updateLink = t.updateLink) (small : t'.fdrs.length ≤ 2 ^ 31)
    (whead : ∀ u, (t'.fdr u).whead = (t.fdr u).whead) (wtail : ∀ u, (t'.fdr u).wtail = (t.fdr u).wtail)
    (link : ∀ u, (t'.fdr u).updateLink = (t.fdr u).updateLink) : Lays t' heads next lay := by
  have head : t'.head heads = t.head heads := by
    funext o
    cases o with
    | free => exact freeWlink
    | chain u => exact whead u
    | drained i => rfl
  refine ⟨?_, ?_, ?_, ?_, small⟩
  · rw [head, ws]
    exact lays.slots
  · intro u wix last
    rw [wtail]
    exact lays.tail u wix last
  · rw [updateLink]
    exact lays.queue.congr fun l _ => link (l - 1)
  · intro u
    rw [link]
    exact lays.queued u

theorem setFdr (lays : Lays t heads next lay) (whead : fdi.whead = (t.fdr ufd).whead)
    (wtail : fdi.wtail = (t.fdr ufd).wtail) (link : fdi.updateLink = (t.fdr ufd).updateLink) :
    Lays (t.setFdr ufd fdi) heads next lay :=
  lays.same rfl rfl rfl (Nat.le_trans (Nat.le_of_eq FdEventSet.setFdr_length) lays.small)
    (fun _ => FdEventSet.fdr_setFdr_field FdRec.whead whead)
    (fun _ => FdEventSet.fdr_setFdr_field FdRec.wtail wtail)
    (fun _ => FdEventSet.fdr_setFdr_field FdRec.updateLink link)

/-- A record that is not in the array has nothing. -/
theorem outside (lays : Lays t heads next lay) (outside : t.fdrs.length ≤ ufd) :
    lay.held (.chain ufd) = [] ∧ ufd ∉ lay.queue := by
  have none := FdEventSet.fdr_outside outside
  constructor
  · have leads := (lays.slots.lists (.chain ufd)).leads
    rw [FdEventSet.head, none] at leads
    exact leads.empty_iff.mp rfl
  · rw [← lays.queued, none]
    exact fun some => some rfl

theorem inside (lays : Lays t heads next lay) (member : ufd ∈ lay.queue) : ufd < t.fdrs.length := by
  by_contra outside
  exact (lays.outside (Nat.not_lt.mp outside)).2 member

theorem queue_nodup (lays : Lays t heads next lay) : lay.queue.Nodup :=
  List.Nodup.of_map _ lays.queue.nodup

/-- The head of the update list is not clean. -/
theorem updateLink_ne (lays : Lays t heads next lay) : t.updateLink ≠ linkClean := by
  have leads := lays.queue
  cases some : lay.queue with
  | nil =>
      rw [some] at leads
      rw [leads.empty_iff.mpr rfl]
      decide
  | cons u rest =>
      rw [some] at leads
      rw [leads.head]
      exact Nat.succ_ne_zero u

theorem enqueue (lays : Lays t heads next lay) (inside : ufd < t.fdrs.length) :
    Lays (t.queue ufd) heads next (lay.enqueue ufd) := by
  unfold FdEventSet.queue Layout.enqueue
  by_cases clean : (t.fdr ufd).updateLink = linkClean
  · have absent : ufd ∉ lay.queue := fun member => (lays.queued ufd).mpr member clean
    simp only [if_pos clean, if_neg absent]
    have other : ∀ u, u ≠ ufd →
        (t.setFdr ufd { t.fdr ufd with updateLink := t.updateLink }).fdr u = t.fdr u :=
      fun u other => FdEventSet.fdr_setFdr_ne other
    have mine : (t.setFdr ufd { t.fdr ufd with updateLink := t.updateLink }).fdr ufd =
        { t.fdr ufd with updateLink := t.updateLink } := FdEventSet.fdr_setFdr_self inside
    have head : ({ t.setFdr ufd { t.fdr ufd with updateLink := t.updateLink } with
        updateLink := ufd + 1 } : FdEventSet).head heads = t.head heads := by
      funext o
      cases o with
      | chain u => exact FdEventSet.fdr_setFdr_field FdRec.whead rfl
      | free => rfl
      | drained i => rfl
    refine ⟨?_, ?_, ?_, ?_, Nat.le_trans (Nat.le_of_eq FdEventSet.setFdr_length) lays.small⟩
    · rw [head]
      exact lays.slots
    · intro u wix last
      rw [← lays.tail u wix last]
      exact FdEventSet.fdr_setFdr_field FdRec.wtail rfl
    · apply Leads.cons
      · have self : (ufd + 1 : Nat) - 1 = ufd := rfl
        show Leads _ _ ((t.setFdr ufd { t.fdr ufd with updateLink := t.updateLink }).fdr (ufd + 1 - 1)).updateLink _
        rw [self, mine]
        refine lays.queue.congr fun l member => ?_
        obtain ⟨u, queued, rfl⟩ := List.mem_map.mp member
        refine congrArg FdRec.updateLink (other u ?_)
        rintro rfl
        exact absent queued
      · have small := lays.small
        show ufd + 1 ≠ 2 ^ 32 - 1
        omega
    · intro u
      show ((t.setFdr ufd { t.fdr ufd with updateLink := t.updateLink }).fdr u).updateLink ≠ linkClean ↔
        u ∈ ufd :: lay.queue
      rw [List.mem_cons]
      by_cases same : u = ufd
      · subst same
        rw [mine]
        exact iff_of_true lays.updateLink_ne (.inl rfl)
      · rw [other u same, lays.queued]
        simp [same]
  · have member : ufd ∈ lay.queue := (lays.queued ufd).mp clean
    simp only [if_neg clean, if_pos member]
    exact lays

/-! The array of records grows. -/

theorem fit_gt {ufd fuel ncapacity : Nat} (some : 0 < ncapacity) (enough : ufd < ncapacity + fuel) :
    ufd < fit ufd fuel ncapacity := by
  induction fuel generalizing ncapacity with
  | zero => exact enough
  | succ fuel ih =>
      rw [fit]
      split
      · assumption
      · apply ih <;> omega

theorem fit_le {ufd fuel ncapacity : Nat} : fit ufd fuel ncapacity ≤ max ncapacity (2 * ufd) := by
  induction fuel generalizing ncapacity with
  | zero => exact Nat.le_max_left _ _
  | succ fuel ih =>
      rw [fit]
      split
      · exact Nat.le_max_left _ _
      · have bound := @ih (ncapacity * 2)
        omega

theorem ensure_fdr (t : FdEventSet) (ufd u : Nat) : (t.ensure ufd).fdr u = t.fdr u := by
  have grown : ∀ n, (t.fdrs ++ List.replicate n ({} : FdRec)).getD u {} = t.fdrs.getD u {} := by
    intro n
    simp only [List.getD_eq_getElem?_getD, List.getElem?_append]
    split
    · rfl
    · rename_i outside
      rw [List.getElem?_eq_none (Nat.not_lt.mp outside), List.getElem?_replicate]
      split <;> rfl
  unfold FdEventSet.ensure
  split
  · exact grown _
  · rfl

theorem ensure_ws (t : FdEventSet) (ufd : Nat) : (t.ensure ufd).ws = t.ws ∧
    (t.ensure ufd).freeWlink = t.freeWlink ∧ (t.ensure ufd).updateLink = t.updateLink := by
  unfold FdEventSet.ensure
  split <;> exact ⟨rfl, rfl, rfl⟩

theorem ensure_length {t : FdEventSet} (small : t.fdrs.length ≤ 2 ^ 31) (number : ufd < 2 ^ 31) :
    ufd < (t.ensure ufd).fdrs.length ∧ (t.ensure ufd).fdrs.length ≤ 2 ^ 31 := by
  unfold FdEventSet.ensure FdEventSet.hardEnsure
  split
  · rename_i outside
    have block : blockCapacity = 1024 := rfl
    have first : firstCapacity = 128 := rfl
    simp only [List.length_append, List.length_replicate]
    by_cases large : blockCapacity ≤ ufd
    · rw [if_pos large]
      rw [block] at large ⊢
      omega
    · rw [if_neg large]
      rw [block] at large
      rw [first]
      have above : ufd < fit ufd ufd (max 128 (t.fdrs.length * 2)) := fit_gt (by omega) (by omega)
      have below : fit ufd ufd (max 128 (t.fdrs.length * 2)) ≤ max (max 128 (t.fdrs.length * 2)) (2 * ufd) :=
        fit_le
      omega
  · rename_i inside
    exact ⟨Nat.not_le.mp inside, small⟩

theorem ensure (lays : Lays t heads next lay) (number : ufd < 2 ^ 31) :
    Lays (t.ensure ufd) heads next lay ∧ ufd < (t.ensure ufd).fdrs.length ∧
      recordOf (t.ensure ufd) lay = recordOf t lay := by
  obtain ⟨ws, freeWlink, updateLink⟩ := ensure_ws t ufd
  obtain ⟨inside, small⟩ := ensure_length lays.small number
  have fdr := ensure_fdr t ufd
  refine ⟨lays.same ws freeWlink updateLink small ?_ ?_ ?_, inside, ?_⟩
  · exact fun u => congrArg FdRec.whead (fdr u)
  · exact fun u => congrArg FdRec.wtail (fdr u)
  · exact fun u => congrArg FdRec.updateLink (fdr u)
  · funext u
    rw [recordOf, recordOf, fdr, ws]

/-! A watch joins a chain. -/

/-- What `watch` has got for the new watch: the slot `wix`, which `rest` of the free
slots were left without. -/
structure Allocated (t t' : FdEventSet) (wix : Nat) (mask : FdEvent) (lay : Layout) (rest : List Nat) :
    Prop where
  fdrs : t'.fdrs = t.fdrs
  updateLink : t'.updateLink = t.updateLink
  low : 1 ≤ wix
  high : wix ≤ t'.ws.length
  fresh : ∀ p, p ≠ .free → wix ∉ lay.held p
  used : wix ∉ rest
  sub : ∀ i ∈ rest, i ∈ lay.held .free
  kept : ∀ i ∈ lay.held .free, i = wix ∨ i ∈ rest
  left : Leads (links t.ws) linkClean t'.freeWlink rest
  mask : (slot t'.ws wix).mask = mask
  wlink : (slot t'.ws wix).wlink = linkClean
  others : ∀ p, ∀ i ∈ lay.held p, i ≠ wix → slot t'.ws i = slot t.ws i
  shared : ∀ ufd, Shared t'.ws.length
    (Function.update (Function.update lay.held .free rest) (.chain ufd) (lay.held (.chain ufd) ++ [wix]))

theorem allocated (lays : Lays t heads next lay) (mask : FdEvent) :
    ∃ rest, Allocated t (t.allocate mask).2 (t.allocate mask).1 mask lay rest := by
  have shared := lays.slots.shared
  have free := (lays.slots.lists .free).leads
  change Leads (links t.ws) linkClean t.freeWlink (lay.held .free) at free
  unfold FdEventSet.allocate
  by_cases none : t.freeWlink = linkClean
  · have empty := free.empty_iff.mp none
    simp only [if_pos none]
    have new : ∀ p, t.ws.length + 1 ∉ lay.held p :=
      fun p member => Nat.not_succ_le_self _ (shared.valid member).2
    refine ⟨[], rfl, rfl, Nat.succ_pos _, by simp, fun p _ => new p, List.not_mem_nil, nofun,
      fun i member => absurd (empty ▸ member) List.not_mem_nil, ?_,
      by rw [slot_append_new], by rw [slot_append_new], ?_, fun ufd => ?_⟩
    · show Leads (links t.ws) linkClean t.freeWlink []
      rw [none]
      exact .nil
    · intro p i member _
      obtain ⟨low, high⟩ := shared.valid member
      exact slot_append low high
    · have same : Function.update lay.held .free [] = lay.held := empty ▸ Function.update_eq_self .free lay.held
      rw [same]
      simp only [List.length_append, List.length_singleton]
      exact shared.grow (Function.update_self ..) fun p other => Function.update_of_ne other ..
  · obtain ⟨rest, list, left⟩ := free.cons_of_ne none
    have member : t.freeWlink ∈ lay.held .free := list ▸ List.mem_cons_self
    obtain ⟨low, high⟩ := shared.valid member
    have used : t.freeWlink ∉ rest := by
      have nodup := shared.nodup .free
      rw [list] at nodup
      exact (List.nodup_cons.mp nodup).1
    simp only [if_neg none]
    refine ⟨rest, rfl, rfl, low, by rwa [length_setSlot], ?_, used, ?_, ?_, left, ?_, ?_, ?_, fun ufd => ?_⟩
    · exact fun p notFree theirs => notFree (lays.slots.single member theirs)
    · exact fun i mine => list ▸ List.mem_cons_of_mem _ mine
    · exact fun i mine => List.mem_cons.mp (list ▸ mine)
    · rw [slot_setSlot_self low high]
    · rw [slot_setSlot_self low high]
    · exact fun p i valid other => slot_setSlot_ne low (shared.valid valid).1 other
    · rw [length_setSlot]
      have distinct : Owner.free ≠ .chain ufd := nofun
      refine shared.exchange distinct ?_ ?_
      · rw [Function.update_of_ne distinct, Function.update_self, Function.update_self, list]
        exact (List.perm_append_comm.append_left rest).trans (by simp [List.perm_middle])
      · intro p free chain
        rw [Function.update_of_ne chain, Function.update_of_ne free]

theorem joined {wix : Nat} {mask : FdEvent} {rest : List Nat} {t₁ : FdEventSet}
    (lays : Lays t heads next lay) (alloc : Allocated t t₁ wix mask lay rest) (inside : ufd < t.fdrs.length)
    (fdrs : t'.fdrs = t.fdrs.set ufd (endsWith (t.fdr ufd) wix)) (updateLink : t'.updateLink = t.updateLink)
    (free : t'.freeWlink = t₁.freeWlink) (length : t'.ws.length = t₁.ws.length)
    (mine : slot t'.ws wix = { ev := next, mask, wlink := linkClean })
    (last : ∀ x ∈ (lay.held (.chain ufd)).getLast?, slot t'.ws x = { slot t.ws x with wlink := wix })
    (others : ∀ p, ∀ i ∈ lay.held p, i ≠ wix → i ∉ (lay.held (.chain ufd)).getLast? →
      slot t'.ws i = slot t.ws i) :
    ∃ lay', Lays t' heads (next + 1) lay' ∧ lay'.queue = lay.queue ∧
      (∀ i ∈ lay.held .free, i ∈ lay'.held .free ∨ i ∈ lay'.held (.chain ufd)) ∧
      recordOf t' lay' = Function.update (recordOf t lay) ufd
        { recordOf t lay ufd with watches := (recordOf t lay ufd).watches ++ [{ ev := next, mask }] } := by
  have records : ∀ u, t'.fdr u = (t.setFdr ufd (endsWith (t.fdr ufd) wix)).fdr u := by
    intro u
    rw [FdEventSet.fdr, fdrs]
    rfl
  have self : t'.fdr ufd = endsWith (t.fdr ufd) wix := (records ufd).trans (FdEventSet.fdr_setFdr_self inside)
  have other : ∀ u, u ≠ ufd → t'.fdr u = t.fdr u :=
    fun u other => (records u).trans (FdEventSet.fdr_setFdr_ne other)
  have whead : (t.fdr ufd).whead = linkClean ↔ lay.held (.chain ufd) = [] :=
    (lays.slots.lists (.chain ufd)).leads.empty_iff
  have head : t'.head heads = Function.update (Function.update (t.head heads) .free t₁.freeWlink) (.chain ufd)
      (if lay.held (.chain ufd) = [] then wix else t.head heads (.chain ufd)) := by
    funext o
    cases o with
    | free =>
        rw [Function.update_of_ne (chain_ne_free ufd).symm, Function.update_self]
        exact free
    | chain u =>
        by_cases same : u = ufd
        · subst same
          rw [Function.update_self, FdEventSet.head, self]
          simp only [endsWith, whead]
          rfl
        · rw [Function.update_of_ne (chain_ne same), Function.update_of_ne (chain_ne_free u),
            FdEventSet.head, other u same]
          rfl
    | drained i =>
        rw [Function.update_of_ne (drained_ne_chain i ufd), Function.update_of_ne (drained_ne_free i)]
        rfl
  let held := Function.update (Function.update lay.held .free rest) (.chain ufd) (lay.held (.chain ufd) ++ [wix])
  have heldSelf : held (.chain ufd) = lay.held (.chain ufd) ++ [wix] := Function.update_self ..
  have heldOther : ∀ u, u ≠ ufd → held (.chain u) = lay.held (.chain u) := by
    intro u other
    exact (Function.update_of_ne (chain_ne other) _ _).trans (Function.update_of_ne (chain_ne_free u) _ _)
  refine ⟨{ lay with held }, ⟨?_, ?_, ?_, ?_, ?_⟩, rfl, ?_, ?_⟩
  · rw [head]
    exact lays.slots.join (length ▸ alloc.shared ufd) alloc.fresh alloc.used alloc.sub alloc.left mine last others
  · intro u final
    by_cases same : u = ufd
    · subst same
      simp only [heldSelf, List.getLast?_concat, Option.mem_some_iff]
      rintro rfl
      rw [self]
      rfl
    · simp only [heldOther u same, other u same]
      exact lays.tail u final
  · rw [updateLink]
    refine lays.queue.congr fun l _ => ?_
    unfold FdEventSet.updateLinks
    by_cases same : l - 1 = ufd
    · rw [same, self]
      rfl
    · rw [other _ same]
  · intro u
    rw [← lays.queued]
    by_cases same : u = ufd
    · rw [same, self]
      rfl
    · rw [other u same]
  · rw [fdrs, List.length_set]
    exact lays.small
  · intro i member
    rcases alloc.kept i member with rfl | later
    · right
      show i ∈ held (.chain ufd)
      rw [heldSelf]
      exact List.mem_append_right _ (List.mem_singleton_self i)
    · have free : held .free = rest :=
        (Function.update_of_ne (chain_ne_free ufd).symm _ _).trans (Function.update_self ..)
      left
      show i ∈ held .free
      rwa [free]
  · funext u
    have old : ∀ u, ∀ i ∈ lay.held (.chain u), watchOf t'.ws i = watchOf t.ws i := by
      intro u i member
      by_cases final : i ∈ (lay.held (.chain ufd)).getLast?
      · rw [watchOf, watchOf, last i final]
      · rw [watchOf, watchOf, others _ i member (fun same => alloc.fresh (.chain u) (by simp) (same ▸ member)) final]
    by_cases same : u = ufd
    · subst same
      have new : watchOf t'.ws wix = { ev := next, mask } := by
        rw [watchOf, mine]
        rfl
      simp only [recordOf, Function.update_self, heldSelf, self, List.map_append, List.map_cons, List.map_nil,
        new, List.map_congr_left (old u)]
      rfl
    · simp only [recordOf, Function.update_of_ne same, heldOther u same, other u same,
        List.map_congr_left (old u)]

theorem append (lays : Lays t heads next lay) (inside : ufd < t.fdrs.length) (mask : FdEvent) :
    ∃ lay', Lays (t.append ufd mask next) heads (next + 1) lay' ∧ lay'.queue = lay.queue ∧
      (∀ i ∈ lay.held .free, i ∈ lay'.held .free ∨ i ∈ lay'.held (.chain ufd)) ∧
      recordOf (t.append ufd mask next) lay' = Function.update (recordOf t lay) ufd
        { recordOf t lay ufd with watches := (recordOf t lay ufd).watches ++ [{ ev := next, mask }] } := by
  obtain ⟨rest, alloc⟩ := lays.allocated mask
  unfold FdEventSet.append
  generalize t.allocate mask = got at alloc ⊢
  obtain ⟨wix, t₁⟩ := got
  simp only at alloc ⊢
  have fdr : t₁.fdr ufd = t.fdr ufd := by
    rw [FdEventSet.fdr, alloc.fdrs]
    rfl
  have leads := (lays.slots.lists (.chain ufd)).leads
  have mine : ∀ ws : List WatchRec, ws.length = t₁.ws.length → (slot ws wix).mask = mask →
      (slot ws wix).wlink = linkClean → slot (setSlot ws wix { slot ws wix with ev := next }) wix =
        { ev := next, mask, wlink := linkClean } := by
    intro ws length mask wlink
    rw [slot_setSlot_self alloc.low (length ▸ alloc.high)]
    simp only [mask, wlink]
  rw [fdr]
  by_cases none : (t.fdr ufd).whead = linkClean
  · have empty : lay.held (.chain ufd) = [] := leads.empty_iff.mp none
    simp only [if_pos none]
    refine lays.joined alloc inside ?_ alloc.updateLink rfl length_setSlot (mine t₁.ws rfl alloc.mask alloc.wlink)
      ?_ ?_
    · simp only [FdEventSet.setFdr, endsWith, alloc.fdrs, if_pos none]
    · rw [empty]
      simp
    · intro p i member notMine _
      show slot (setSlot t₁.ws wix _) i = _
      rw [slot_setSlot_ne alloc.low (lays.slots.shared.valid member).1 notMine]
      exact alloc.others p i member notMine
  · have some : lay.held (.chain ufd) ≠ [] := fun empty => none (leads.empty_iff.mpr empty)
    obtain ⟨x, final⟩ : ∃ x, x ∈ (lay.held (.chain ufd)).getLast? :=
      ⟨_, List.getLast?_eq_some_getLast some⟩
    have last := List.mem_of_getLast? final
    obtain ⟨low, _⟩ := lays.slots.shared.valid last
    have apart : x ≠ wix := fun same => alloc.fresh (.chain ufd) (by simp) (same ▸ last)
    have high : x ≤ t₁.ws.length := by
      refine ((alloc.shared ufd).valid (o := .chain ufd) ?_).2
      rw [Function.update_self]
      exact List.mem_append_left _ last
    simp only [if_neg none, lays.tail ufd x final]
    have linked : slot (setLink t₁.ws x wix) wix = slot t₁.ws wix := slot_setSlot_ne low alloc.low apart.symm
    refine lays.joined alloc inside ?_ alloc.updateLink rfl ?_
      (mine (setLink t₁.ws x wix) length_setLink (linked ▸ alloc.mask) (linked ▸ alloc.wlink)) ?_ ?_
    · simp only [FdEventSet.setFdr, endsWith, alloc.fdrs, if_neg none]
    · simp only [length_setSlot, length_setLink]
    · intro y final'
      obtain rfl : x = y := Option.some.inj (final.symm.trans final')
      show slot (setSlot (setLink t₁.ws x wix) wix _) x = _
      rw [slot_setSlot_ne alloc.low low apart, setLink, slot_setSlot_self low high,
        alloc.others (.chain ufd) x last apart]
    · intro p i member notMine notLast
      obtain ⟨low', _⟩ := lays.slots.shared.valid member
      have notX : i ≠ x := fun same => notLast (same ▸ final)
      show slot (setSlot (setLink t₁.ws x wix) wix _) i = _
      rw [slot_setSlot_ne alloc.low low' notMine, setLink, slot_setSlot_ne low low' notX]
      exact alloc.others p i member notMine

/-! Watches leave, and their slots are freed. -/

theorem free_self {wix : Nat} {o : Owner} (used : o ≠ .free) : (lay.free o wix rest).held o = rest :=
  (Function.update_of_ne used _ _).trans (Function.update_self ..)

theorem free_other {wix : Nat} {o p : Owner} (used : p ≠ .free) (other : p ≠ o) :
    (lay.free o wix rest).held p = lay.held p :=
  (Function.update_of_ne used _ _).trans (Function.update_of_ne other _ _)

theorem free_chain {wix : Nat} {o : Owner} (used : o ≠ .free) (u : Nat) :
    (lay.free o wix rest).held (.chain u) = if .chain u = o then rest else lay.held (.chain u) := by
  split
  · rename_i same
    rw [same]
    exact free_self used
  · rename_i other
    exact free_other (chain_ne_free u) other

/-- The slots of the chains keep their watches. -/
theorem free_watches (lays : Lays t heads next lay) {wix : Nat} {o : Owner} (list : lay.held o = wix :: rest)
    (used : o ≠ .free) (u : Nat) : ∀ i ∈ (lay.free o wix rest).held (.chain u),
      watchOf (freeSlot t wix).ws i = watchOf t.ws i := by
  intro i member
  have mine : wix ∈ lay.held o := list ▸ List.mem_cons_self
  have nodup := lays.slots.shared.nodup o
  rw [list] at nodup
  rw [free_chain used] at member
  have valid : i ∈ lay.held (.chain u) ∧ i ≠ wix := by
    split at member
    · rename_i same
      rw [same, list]
      refine ⟨List.mem_cons_of_mem _ member, ?_⟩
      rintro rfl
      exact (List.nodup_cons.mp nodup).1 member
    · rename_i other
      refine ⟨member, ?_⟩
      rintro rfl
      exact other (lays.slots.single mine member)
  have same : slot (freeSlot t wix).ws i = slot t.ws i :=
    slot_setSlot_ne (lays.slots.shared.valid mine).1 (lays.slots.shared.valid valid.1).1 valid.2
  rw [watchOf, watchOf, same]

/-- The head of a list that loses its first slot moves on. -/
theorem free_head {wix : Nat} {o : Owner} {heads' : List Nat} {t' : FdEventSet}
    (free : t'.freeWlink = wix) (mine : t'.head heads' o = links t.ws wix)
    (others : ∀ p, p ≠ o → p ≠ .free → t'.head heads' p = t.head heads p) (used : o ≠ .free) :
    t'.head heads' = Function.update (Function.update (t.head heads) o (links t.ws wix)) .free wix := by
  funext p
  by_cases same : p = .free
  · subst same
    rw [Function.update_self]
    exact free
  · rw [Function.update_of_ne same]
    by_cases same' : p = o
    · subst same'
      rw [Function.update_self]
      exact mine
    · rw [Function.update_of_ne same']
      exact others p same' same

/-- The first watch of a chain leaves. -/
theorem leave (lays : Lays t heads next lay) {wix : Nat} (list : lay.held (.chain ufd) = wix :: rest) :
    Lays (freeSlot (t.setFdr ufd (startsAt (t.fdr ufd) (links t.ws wix))) wix) heads next
        (lay.free (.chain ufd) wix rest) ∧
      recordOf (freeSlot (t.setFdr ufd (startsAt (t.fdr ufd) (links t.ws wix))) wix)
          (lay.free (.chain ufd) wix rest) =
        Function.update (recordOf t lay) ufd { recordOf t lay ufd with watches := rest.map (watchOf t.ws) } := by
  have inside : ufd < t.fdrs.length := by
    by_contra outside
    have none := (lays.outside (Nat.not_lt.mp outside)).1
    rw [list] at none
    contradiction
  have self : (t.setFdr ufd (startsAt (t.fdr ufd) (links t.ws wix))).fdr ufd =
      startsAt (t.fdr ufd) (links t.ws wix) := FdEventSet.fdr_setFdr_self inside
  have other : ∀ u, u ≠ ufd → (t.setFdr ufd (startsAt (t.fdr ufd) (links t.ws wix))).fdr u = t.fdr u :=
    fun u other => FdEventSet.fdr_setFdr_ne other
  have used : Owner.chain ufd ≠ .free := chain_ne_free ufd
  have head : (freeSlot (t.setFdr ufd (startsAt (t.fdr ufd) (links t.ws wix))) wix).head heads =
      Function.update (Function.update (t.head heads) (.chain ufd) (links t.ws wix)) .free wix := by
    refine free_head rfl (congrArg FdRec.whead self) ?_ used
    intro p notMine notFree
    cases p with
    | free => contradiction
    | chain u => exact congrArg FdRec.whead (other u fun same => notMine (same ▸ rfl))
    | drained i => rfl
  refine ⟨⟨?_, ?_, ?_, ?_, Nat.le_trans (Nat.le_of_eq FdEventSet.setFdr_length) lays.small⟩, ?_⟩
  · rw [head]
    exact lays.slots.release list used
  · intro u final last
    rw [free_chain used] at last
    by_cases same : u = ufd
    · subst same
      rw [if_pos rfl] at last
      show ((t.setFdr u (startsAt (t.fdr u) (links t.ws wix))).fdr u).wtail = final
      rw [self]
      apply lays.tail u
      rw [list, List.getLast?_cons, last]
      rfl
    · rw [if_neg (chain_ne same)] at last
      show ((t.setFdr ufd (startsAt (t.fdr ufd) (links t.ws wix))).fdr u).wtail = final
      rw [other u same]
      exact lays.tail u final last
  · refine lays.queue.congr fun l _ => ?_
    exact FdEventSet.fdr_setFdr_field FdRec.updateLink rfl
  · intro u
    show ((t.setFdr ufd (startsAt (t.fdr ufd) (links t.ws wix))).fdr u).updateLink ≠ linkClean ↔ u ∈ lay.queue
    rw [FdEventSet.fdr_setFdr_field FdRec.updateLink]
    · exact lays.queued u
    · rfl
  · funext u
    have watches : ((lay.free (.chain ufd) wix rest).held (.chain u)).map
        (watchOf (freeSlot (t.setFdr ufd (startsAt (t.fdr ufd) (links t.ws wix))) wix).ws) =
        ((lay.free (.chain ufd) wix rest).held (.chain u)).map (watchOf t.ws) :=
      List.map_congr_left (lays.free_watches list used u)
    simp only [recordOf, watches]
    show Watches.FdRec.mk ((t.setFdr ufd _).fdr u).body ((t.setFdr ufd _).fdr u).epoch _ = _
    rw [free_chain used]
    by_cases same : u = ufd
    · subst same
      rw [self, if_pos rfl, Function.update_self]
      rfl
    · rw [other u same, if_neg (chain_ne same), Function.update_of_ne same]
      rfl

/-- A slot in use has an event. -/
theorem event (lays : Lays t heads next lay) {wix : Nat} {o : Owner} (used : o ≠ .free) (member : wix ∈ lay.held o) :
    (slot t.ws wix).ev = some (watchOf t.ws wix).ev := by
  obtain ⟨e, _, ev⟩ := (lays.slots.lists o).made used wix member
  rw [watchOf, ev]
  rfl

theorem closes {fuel : Nat} {xs : List Nat} (triggered : List Nat) (lays : Lays t heads next lay)
    (list : lay.held (.chain ufd) = xs) (enough : xs.length ≤ fuel) :
    ∃ t' lay', FdEventSet.closeLoop ufd fuel t triggered =
        some (t', triggered ++ (recordOf t lay ufd).watches.map Watch.ev) ∧
      Lays t' heads next lay' ∧ t'.fdrs.length = t.fdrs.length ∧ lay'.queue = lay.queue ∧
      lay'.held (.chain ufd) = [] ∧ (∀ i ∈ xs, i ∈ lay'.held .free) ∧
      (∀ i ∈ lay.held .free, i ∈ lay'.held .free) ∧
      recordOf t' lay' = Function.update (recordOf t lay) ufd { recordOf t lay ufd with watches := [] } := by
  have leads := (lays.slots.lists (.chain ufd)).leads
  change Leads (links t.ws) linkClean (t.fdr ufd).whead (lay.held (.chain ufd)) at leads
  induction xs generalizing fuel t lay triggered with
  | nil =>
      have none : (t.fdr ufd).whead = linkClean := leads.empty_iff.mpr list
      have empty : (recordOf t lay ufd).watches = [] := by
        rw [recordOf, list]
        rfl
      refine ⟨t, lay, ?_, lays, rfl, rfl, list, nofun, fun _ => id, ?_⟩
      · rw [empty, List.map_nil, List.append_nil]
        cases fuel <;> rw [FdEventSet.closeLoop, if_pos none]
      · rw [← empty]
        exact (Function.update_eq_self ufd _).symm
  | cons wix xs ih =>
      rw [list] at leads
      have some : (t.fdr ufd).whead ≠ linkClean := fun none => nomatch leads.empty_iff.mp none
      obtain ⟨fuel, rfl⟩ := Nat.exists_eq_add_one.mpr (Nat.lt_of_lt_of_le (Nat.succ_pos _) enough)
      have ev := lays.event (chain_ne_free ufd) (list ▸ List.mem_cons_self : wix ∈ lay.held (.chain ufd))
      obtain ⟨left, record⟩ := lays.leave list
      obtain ⟨t', lay', runs, done, length, queue, empty, freed, kept, same⟩ :=
        ih (triggered ++ [(watchOf t.ws wix).ev]) left (free_self (chain_ne_free ufd))
          (Nat.le_of_succ_le_succ enough) (left.slots.lists (.chain ufd)).leads
      have recycled : ∀ i ∈ wix :: lay.held .free, i ∈ (lay.free (.chain ufd) wix xs).held .free := by
        intro i member
        rw [Layout.free]
        simpa using member
      refine ⟨t', lay', ?_, done, length.trans FdEventSet.setFdr_length, queue, empty, ?_, ?_, ?_⟩
      · rw [FdEventSet.closeLoop, if_neg some, leads.head]
        refine Option.bind_eq_some_iff.mpr ⟨_, ev, runs.trans ?_⟩
        rw [record, Function.update_self]
        simp only [recordOf, list, List.map_cons, List.append_assoc, List.singleton_append]
      · intro i member
        rcases List.mem_cons.mp member with rfl | later
        · exact kept i (recycled i List.mem_cons_self)
        · exact freed i later
      · exact fun i member => kept i (recycled i (List.mem_cons_of_mem wix member))
      · rw [same, record, Function.update_idem, Function.update_self]

/-- `fd_close` has emptied the record. -/
structure Closed (t t' : FdEventSet) (heads : List Nat) (next : Nat) (lay lay' : Layout) (ufd : Nat) : Prop where
  lays : Lays t' heads next lay'
  length : t'.fdrs.length = t.fdrs.length
  queue : lay'.queue = (lay.enqueue ufd).queue
  empty : lay'.held (.chain ufd) = []
  freed : ∀ i ∈ lay.held (.chain ufd), i ∈ lay'.held .free
  record : recordOf t' lay' = Function.update (recordOf t lay) ufd { epoch := (t.fdr ufd).epoch + 1 }

theorem registered (body : (t.fdr ufd).body = some b) : ufd < t.fdrs.length := by
  by_contra outside
  rw [FdEventSet.fdr_outside (Nat.not_lt.mp outside)] at body
  contradiction

theorem fdClose_keeps {isOpen : Nat → Bool} (unused : ∀ b, (t.fdr ufd).body = some b → isOpen b = true) :
    t.fdClose isOpen ufd = some (t, [], none) := by
  unfold FdEventSet.fdClose
  split
  · rfl
  · split
    · rfl
    · rename_i b body
      rw [if_pos (unused b body)]

theorem queue_length (t : FdEventSet) (ufd : Nat) : (t.queue ufd).fdrs.length = t.fdrs.length := by
  simp only [FdEventSet.queue]
  split
  · exact List.length_set
  · rfl

theorem queue_ws (t : FdEventSet) (ufd : Nat) : (t.queue ufd).ws = t.ws := by
  simp only [FdEventSet.queue]
  split <;> rfl

theorem enqueue_record (t : FdEventSet) (lay : Layout) (ufd : Nat) :
    recordOf (t.queue ufd) (lay.enqueue ufd) = recordOf t lay := by
  funext u
  simp only [FdEventSet.queue]
  split
  · have body : ((t.setFdr ufd { t.fdr ufd with updateLink := t.updateLink }).fdr u).body = (t.fdr u).body :=
      FdEventSet.fdr_setFdr_field FdRec.body rfl
    have epoch : ((t.setFdr ufd { t.fdr ufd with updateLink := t.updateLink }).fdr u).epoch = (t.fdr u).epoch :=
      FdEventSet.fdr_setFdr_field FdRec.epoch rfl
    show Watches.FdRec.mk ((t.setFdr ufd { t.fdr ufd with updateLink := t.updateLink }).fdr u).body _ _ = _
    rw [body]
    show Watches.FdRec.mk _ ((t.setFdr ufd { t.fdr ufd with updateLink := t.updateLink }).fdr u).epoch _ = _
    rw [epoch]
    rfl
  · rfl

/-- The body and the epoch of a record change. -/
theorem setFdr_record (inside : ufd < t.fdrs.length) :
    recordOf (t.setFdr ufd fdi) lay =
      Function.update (recordOf t lay) ufd { recordOf t lay ufd with body := fdi.body, epoch := fdi.epoch } := by
  funext u
  by_cases same : u = ufd
  · subst same
    rw [Function.update_self, recordOf, FdEventSet.fdr_setFdr_self inside]
    rfl
  · rw [Function.update_of_ne same, recordOf, FdEventSet.fdr_setFdr_ne same]
    rfl

/-- An empty chain has no last slot. -/
theorem clearTail (lays : Lays t heads next lay) (empty : lay.held (.chain ufd) = []) (epoch : Epoch) :
    Lays (t.setFdr ufd { t.fdr ufd with wtail := linkClean, epoch }) heads next lay := by
  have whead : ∀ u, ((t.setFdr ufd { t.fdr ufd with wtail := linkClean, epoch }).fdr u).whead = (t.fdr u).whead :=
    fun u => FdEventSet.fdr_setFdr_field FdRec.whead rfl
  have link : ∀ u, ((t.setFdr ufd { t.fdr ufd with wtail := linkClean, epoch }).fdr u).updateLink =
      (t.fdr u).updateLink := fun u => FdEventSet.fdr_setFdr_field FdRec.updateLink rfl
  have head : (t.setFdr ufd { t.fdr ufd with wtail := linkClean, epoch }).head heads = t.head heads := by
    funext o
    cases o with
    | chain u => exact whead u
    | free => rfl
    | drained i => rfl
  refine ⟨?_, ?_, ?_, ?_, Nat.le_trans (Nat.le_of_eq FdEventSet.setFdr_length) lays.small⟩
  · rw [head]
    exact lays.slots
  · intro u final last
    by_cases same : u = ufd
    · subst same
      rw [empty] at last
      contradiction
    · rw [FdEventSet.fdr_setFdr_ne same]
      exact lays.tail u final last
  · exact lays.queue.congr fun l _ => link (l - 1)
  · intro u
    rw [link]
    exact lays.queued u

theorem fdClose_closes {isOpen : Nat → Bool} (lays : Lays t heads next lay) (body : (t.fdr ufd).body = some b)
    (shut : isOpen b = false) : ∃ t' lay',
      t.fdClose isOpen ufd =
        some (t', (recordOf t lay ufd).watches.map Watch.ev, some (b, (t.fdr ufd).epoch)) ∧
      Closed t t' heads next lay lay' ufd := by
  have inside := registered body
  obtain ⟨t₁, lay₁, runs, lays₁, length, queue, empty, freed, _, record⟩ :=
    closes [] lays rfl lays.slots.shared.length_le
  have inside₁ : ufd < t₁.fdrs.length := length ▸ inside
  have old : recordOf t₁ lay₁ ufd = { recordOf t lay ufd with watches := [] } := by
    rw [record, Function.update_self]
  have epoch : (t₁.fdr ufd).epoch = (t.fdr ufd).epoch := congrArg Watches.FdRec.epoch old
  have body₁ : (t₁.fdr ufd).body = some b := (congrArg Watches.FdRec.body old).trans body
  let fdi : FdRec := { t₁.fdr ufd with wtail := linkClean, epoch := (t.fdr ufd).epoch + 1 }
  let t₂ := (t₁.setFdr ufd fdi).queue ufd
  have lays₂ : Lays t₂ heads next (lay₁.enqueue ufd) :=
    (lays₁.clearTail empty _).enqueue (by rwa [FdEventSet.setFdr_length])
  have inside₂ : ufd < t₂.fdrs.length := by rwa [queue_length, FdEventSet.setFdr_length]
  have runs' : t.fdClose isOpen ufd = some (t₂.setFdr ufd { t₂.fdr ufd with body := none },
      (recordOf t lay ufd).watches.map Watch.ev, some (b, (t.fdr ufd).epoch)) := by
    simp only [FdEventSet.fdClose, if_neg (Nat.not_le.mpr inside), body, shut, Bool.false_eq_true, if_false]
    rw [runs, List.nil_append]
    simp only [Option.map_some, epoch]
    rfl
  refine ⟨_, lay₁.enqueue ufd, runs', lays₂.setFdr rfl rfl rfl, ?_, ?_, empty, freed, ?_⟩
  · rw [FdEventSet.setFdr_length, queue_length, FdEventSet.setFdr_length, length]
  · simp only [Layout.enqueue, queue]
  · have after : recordOf t₂ (lay₁.enqueue ufd) = Function.update (recordOf t lay) ufd
        { recordOf t lay ufd with epoch := (t.fdr ufd).epoch + 1, watches := [] } := by
      rw [enqueue_record, setFdr_record inside₁, record, Function.update_idem, Function.update_self]
      refine congrArg (Function.update (recordOf t lay) ufd) ?_
      simp only [fdi, body₁, recordOf, body]
    have epoch₂ : (t₂.fdr ufd).epoch = (t.fdr ufd).epoch + 1 := by
      have self := congrFun after ufd
      rw [Function.update_self] at self
      exact congrArg Watches.FdRec.epoch self
    rw [setFdr_record inside₂, after, Function.update_idem, Function.update_self]
    refine congrArg (Function.update (recordOf t lay) ufd) ?_
    simp only [epoch₂]

/-! Watches are taken. -/

theorem head_concat (t : FdEventSet) (heads : List Nat) (whead : Nat) :
    t.head (heads ++ [whead]) = Function.update (t.head heads) (.drained heads.length) whead := by
  funext o
  cases o with
  | free => rw [Function.update_of_ne (drained_ne_free _).symm]; rfl
  | chain u => rw [Function.update_of_ne (drained_ne_chain _ u).symm]; rfl
  | drained i =>
      by_cases last : i = heads.length
      · subst last
        rw [Function.update_self]
        simp [FdEventSet.head]
      · have other : Owner.drained i ≠ .drained heads.length := fun same => last (Owner.drained.inj same)
        rw [Function.update_of_ne other, FdEventSet.head, FdEventSet.head]
        by_cases before : i < heads.length
        · simp [List.getElem?_append_left before]
        · have outside : (heads ++ [whead]).length ≤ i := by
            rw [List.length_append, List.length_singleton]
            omega
          simp only [List.getD_eq_getElem?_getD, List.getElem?_eq_none outside,
            List.getElem?_eq_none (Nat.not_lt.mp before)]

/-- A list that has not been returned yet has no slots. -/
theorem undrained (lays : Lays t heads next lay) : lay.held (.drained heads.length) = [] := by
  have leads := (lays.slots.lists (.drained heads.length)).leads
  apply leads.empty_iff.mp
  simp [FdEventSet.head]

/-- `take_watch_list` finds nothing to do. -/
theorem takes_none (lays : Lays t heads next lay) : Lays t (heads ++ [linkClean]) next lay := by
  have same : Function.update (t.head heads) (.drained heads.length) linkClean = t.head heads := by
    have none : linkClean = t.head heads (.drained heads.length) := by simp [FdEventSet.head]
    rw [none]
    exact Function.update_eq_self _ _
  exact ⟨by rw [head_concat, same]; exact lays.slots, lays.tail, lays.queue, lays.queued, lays.small⟩

/-- What `take_watch_list` does to a record whose watches it goes through. -/
structure Taken (t t' : FdEventSet) (heads : List Nat) (next whead : Nat) (lay lay' : Layout) (ufd : Nat)
    (wanted : Watch → Bool) : Prop where
  lays : Lays t' (heads ++ [whead]) next lay'
  length : t'.fdrs.length = t.fdrs.length
  queue : lay'.queue = if (recordOf t lay ufd).watches.filter wanted = [] then lay.queue else (lay.enqueue ufd).queue
  drained : (lay'.held (.drained heads.length)).map (watchOf t'.ws) = (recordOf t lay ufd).watches.filter wanted
  record : recordOf t' lay' = Function.update (recordOf t lay) ufd
    { recordOf t lay ufd with watches := (recordOf t lay ufd).watches.filter (!wanted ·) }

theorem divide_chain (lay : Layout) (ufd n : Nat) (w : Nat → Bool) (u : Nat) :
    (lay.divide ufd n w).held (.chain u) =
      if u = ufd then (lay.held (.chain ufd)).filter (!w ·) else lay.held (.chain u) := by
  simp only [Layout.divide]
  rw [Function.update_of_ne (drained_ne_chain n u).symm]
  split
  · rename_i same
    rw [same, Function.update_self]
  · rename_i same
    exact Function.update_of_ne (chain_ne same) _ _

section divide

variable {ws : List WatchRec} {w : Nat → Bool} {whead fdhead wtail : Nat}

theorem divide_head (inside : ufd < t.fdrs.length) :
    { t.setFdr ufd (setChain (t.fdr ufd) fdhead wtail) with ws }.head (heads ++ [whead]) =
      Function.update (Function.update (t.head heads) (.chain ufd) fdhead) (.drained heads.length) whead := by
  rw [head_concat]
  congr 1
  funext o
  cases o with
  | free => rw [Function.update_of_ne (chain_ne_free ufd).symm]; rfl
  | drained i => rw [Function.update_of_ne (drained_ne_chain i ufd)]; rfl
  | chain u =>
      by_cases same : u = ufd
      · subst same
        rw [Function.update_self]
        exact congrArg FdRec.whead (FdEventSet.fdr_setFdr_self inside)
      · rw [Function.update_of_ne (chain_ne same)]
        exact congrArg FdRec.whead (FdEventSet.fdr_setFdr_ne same)

theorem divide (lays : Lays t heads next lay) (inside : ufd < t.fdrs.length)
    (relinked : Relinked t.ws ws ((lay.held (.chain ufd)).filter w ++ (lay.held (.chain ufd)).filter (!w ·)))
    (takenLeads : Leads (links ws) linkClean whead ((lay.held (.chain ufd)).filter w))
    (leftLeads : Leads (links ws) linkClean fdhead ((lay.held (.chain ufd)).filter (!w ·)))
    (ends : wtail = ((lay.held (.chain ufd)).filter (!w ·)).getLast?.getD linkClean) :
    Lays { t.setFdr ufd (setChain (t.fdr ufd) fdhead wtail) with ws } (heads ++ [whead]) next
      (lay.divide ufd heads.length w) := by
  have link : ∀ u, ((t.setFdr ufd (setChain (t.fdr ufd) fdhead wtail)).fdr u).updateLink = (t.fdr u).updateLink :=
    fun u => FdEventSet.fdr_setFdr_field FdRec.updateLink rfl
  refine ⟨?_, ?_, ?_, ?_, Nat.le_trans (Nat.le_of_eq FdEventSet.setFdr_length) lays.small⟩
  · rw [divide_head inside]
    refine lays.slots.part lays.undrained relinked.length relinked.ev ?_ ?_ List.filter_sublist
      List.filter_sublist leftLeads takenLeads
    · intro i low outside
      apply relinked.others i low
      rw [List.mem_append, not_or]
      exact ⟨fun mine => outside (List.mem_filter.mp mine).1, fun mine => outside (List.mem_filter.mp mine).1⟩
    · exact List.perm_append_comm.trans (List.filter_append_perm w _)
  · intro u final last
    rw [divide_chain] at last
    by_cases same : u = ufd
    · subst same
      rw [if_pos rfl] at last
      refine (congrArg FdRec.wtail (FdEventSet.fdr_setFdr_self inside)).trans ?_
      show wtail = final
      rw [ends, last]
      rfl
    · rw [if_neg same] at last
      exact (congrArg FdRec.wtail (FdEventSet.fdr_setFdr_ne same)).trans (lays.tail u final last)
  · exact lays.queue.congr fun l _ => link (l - 1)
  · intro u
    exact (link u).symm ▸ lays.queued u

theorem divide_record {wanted : Watch → Bool} (lays : Lays t heads next lay) (inside : ufd < t.fdrs.length)
    (watches : ∀ i, 1 ≤ i → watchOf ws i = watchOf t.ws i) (n : Nat) :
    recordOf { t.setFdr ufd (setChain (t.fdr ufd) fdhead wtail) with ws }
        (lay.divide ufd n fun i => wanted (watchOf t.ws i)) =
      Function.update (recordOf t lay) ufd
        { recordOf t lay ufd with watches := (recordOf t lay ufd).watches.filter (!wanted ·) } := by
  funext u
  have old : ∀ i ∈ (lay.divide ufd n fun i => wanted (watchOf t.ws i)).held (.chain u),
      watchOf ws i = watchOf t.ws i := by
    intro i member
    rw [divide_chain] at member
    apply watches i
    split at member
    · exact (lays.slots.shared.valid (List.mem_filter.mp member).1).1
    · exact (lays.slots.shared.valid member).1
  show Watches.FdRec.mk _ _ (((lay.divide ufd n _).held (.chain u)).map (watchOf ws)) = _
  rw [List.map_congr_left old, divide_chain]
  by_cases same : u = ufd
  · subst same
    have self : FdEventSet.fdr { t.setFdr u (setChain (t.fdr u) fdhead wtail) with ws } u =
        setChain (t.fdr u) fdhead wtail := FdEventSet.fdr_setFdr_self inside
    rw [if_pos rfl, Function.update_self, self, recordOf, List.filter_map]
    rfl
  · have other : FdEventSet.fdr { t.setFdr ufd (setChain (t.fdr ufd) fdhead wtail) with ws } u = t.fdr u :=
      FdEventSet.fdr_setFdr_ne same
    rw [if_neg same, Function.update_of_ne same, other]
    rfl

end divide

/-- Which slots the loop of `take_watch_list` takes. -/
theorem decides (empty : Nat → Bool) (imask : FdEvent) (lays : Lays t heads next lay) {i : Nat}
    (member : i ∈ lay.held (.chain ufd)) : FdEventSet.wanted empty imask (slot t.ws i) =
      some (imask &&& (watchOf t.ws i).mask ≠ 0 || empty (watchOf t.ws i).ev) := by
  have choice : (imask &&& (watchOf t.ws i).mask) = imask &&& (slot t.ws i).mask := rfl
  rw [FdEventSet.wanted, lays.event (chain_ne_free ufd) member, choice]
  split
  · rename_i meets
    rw [decide_eq_true meets]
    rfl
  · rename_i meets
    rw [decide_eq_false meets]
    rfl

theorem takes {empty : Nat → Bool} {imask : FdEvent} {epoch : Epoch} (lays : Lays t heads next lay)
    (some : (recordOf t lay ufd).watches ≠ []) (fresh : ¬(epoch ≠ 0 ∧ epoch ≠ (t.fdr ufd).epoch)) :
    ∃ whead t' lay', t.takeWatchList empty ufd imask epoch = Option.some (whead, t') ∧
      Taken t t' heads next whead lay lay' ufd fun w => imask &&& w.mask ≠ 0 || empty w.ev := by
  let wanted : Watch → Bool := fun w => imask &&& w.mask ≠ 0 || empty w.ev
  let w : Nat → Bool := fun i => wanted (watchOf t.ws i)
  have shared := lays.slots.shared
  have list : lay.held (.chain ufd) ≠ [] := fun none => some (by rw [recordOf, none]; rfl)
  have inside : ufd < t.fdrs.length := by
    by_contra outside
    exact list (lays.outside (Nat.not_lt.mp outside)).1
  have leads := (lays.slots.lists (.chain ufd)).leads
  have whead : (t.fdr ufd).whead ≠ linkClean := fun none => list (leads.empty_iff.mp none)
  have start : Parted t.ws { ws := t.ws, fdhead := (t.fdr ufd).whead } [] [] (lay.held (.chain ufd)) :=
    ⟨.refl _ _, rfl, rfl, rfl, shared.nodup _, fun i member => shared.valid member⟩
  obtain ⟨v, runs, parted⟩ := loop_parts start leads (w := w) (fun i member => decides empty imask lays member)
    shared.length_le
  rw [List.nil_append, List.nil_append] at parted
  obtain ⟨takenLeads, leftLeads, relinked⟩ := parted.finish
  let v' := (v.storeTaken linkClean).storeLeft linkClean
  have watches : ∀ i, 1 ≤ i → watchOf v'.ws i = watchOf t.ws i := by
    intro i low
    rw [watchOf, watchOf, relinked.ev i low, relinked.mask i low]
  let t₁ : FdEventSet := { t.setFdr ufd (setChain (t.fdr ufd) v'.fdhead v'.wtail) with ws := v'.ws }
  have lays₁ : Lays t₁ (heads ++ [v'.whead]) next (lay.divide ufd heads.length w) :=
    lays.divide inside relinked takenLeads leftLeads parted.wtail
  have record : recordOf t₁ (lay.divide ufd heads.length w) = Function.update (recordOf t lay) ufd
      { recordOf t lay ufd with watches := (recordOf t lay ufd).watches.filter (!wanted ·) } :=
    lays.divide_record inside watches heads.length
  have drained : ((lay.divide ufd heads.length w).held (.drained heads.length)).map (watchOf t₁.ws) =
      (recordOf t lay ufd).watches.filter wanted := by
    have mine : (lay.divide ufd heads.length w).held (.drained heads.length) =
        (lay.held (.chain ufd)).filter w := Function.update_self ..
    rw [mine, recordOf, List.filter_map]
    exact List.map_congr_left fun i member => watches i (shared.valid (List.mem_filter.mp member).1).1
  have result : t.takeWatchList empty ufd imask epoch =
      Option.some (v'.whead, if v'.whead = linkClean then t₁ else t₁.queue ufd) := by
    rw [FdEventSet.takeWatchList, if_neg (Nat.not_le.mpr inside), if_neg (not_or.mpr ⟨whead, fresh⟩)]
    exact Option.map_eq_some_iff.mpr ⟨v, runs, rfl⟩
  have nothing : v'.whead = linkClean ↔ (recordOf t lay ufd).watches.filter wanted = [] := by
    rw [takenLeads.empty_iff, recordOf, List.filter_map, List.map_eq_nil_iff]
    rfl
  by_cases none : v'.whead = linkClean
  · rw [if_pos none] at result
    refine ⟨v'.whead, t₁, _, result, lays₁, FdEventSet.setFdr_length, ?_, drained, record⟩
    exact (if_pos (nothing.mp none)).symm
  · rw [if_neg none] at result
    refine ⟨v'.whead, t₁.queue ufd, Layout.enqueue (lay.divide ufd heads.length w) ufd, result, lays₁.enqueue ?_,
      ?_, ?_, ?_, ?_⟩
    · exact Nat.lt_of_lt_of_eq inside FdEventSet.setFdr_length.symm
    · exact (queue_length _ _).trans FdEventSet.setFdr_length
    · exact (if_neg fun no => none (nothing.mpr no)).symm
    · rw [queue_ws]
      exact drained
    · rw [enqueue_record]
      exact record

/-- A list that is being drained loses its first watch. -/
theorem drain (lays : Lays t heads next lay) {i wix : Nat} (found : heads[i]? = some wix) (more : wix ≠ linkClean) :
    ∃ e rest, e < next ∧ t.popWatchListEvent wix = (some e, links t.ws wix, freeSlot t wix) ∧
      Lays (freeSlot t wix) (heads.set i (links t.ws wix)) next (lay.free (.drained i) wix rest) ∧
      recordOf (freeSlot t wix) (lay.free (.drained i) wix rest) = recordOf t lay := by
  have first : t.head heads (.drained i) = wix := by
    simp [FdEventSet.head, found]
  have leads := (lays.slots.lists (.drained i)).leads
  rw [first] at leads
  obtain ⟨rest, list, _⟩ := leads.cons_of_ne more
  have used := drained_ne_free i
  have head : (freeSlot t wix).head (heads.set i (links t.ws wix)) =
      Function.update (Function.update (t.head heads) (.drained i) (links t.ws wix)) .free wix := by
    have inside : i < heads.length := (List.getElem?_eq_some_iff.mp found).1
    refine free_head rfl ?_ ?_ used
    · simp [FdEventSet.head, inside]
    · intro p other notFree
      cases p with
      | free => contradiction
      | chain u => rfl
      | drained j =>
          have apart : i ≠ j := fun same => other (same ▸ rfl)
          simp [FdEventSet.head, apart]
  obtain ⟨e, small, ev⟩ := (lays.slots.lists (.drained i)).made used wix (list ▸ List.mem_cons_self)
  refine ⟨e, rest, small, ?_, ⟨?_, ?_, lays.queue, lays.queued, lays.small⟩, ?_⟩
  · rw [FdEventSet.popWatchListEvent, ev]
    rfl
  · rw [head]
    exact lays.slots.release list used
  · intro u final last
    rw [free_chain used, if_neg (drained_ne_chain i u).symm] at last
    exact lays.tail u final last
  · funext u
    have watches := List.map_congr_left (lays.free_watches list used u)
    rw [free_chain used, if_neg (drained_ne_chain i u).symm] at watches
    show Watches.FdRec.mk _ _ (((lay.free (.drained i) wix rest).held (.chain u)).map _) = _
    rw [free_chain used, if_neg (drained_ne_chain i u).symm, watches]
    rfl

/-! Updates are popped. -/

theorem masks {empty : Nat → Bool} {wix fuel : Nat} {xs : List Nat} {mask : FdEvent}
    (leads : Leads (links t.ws) linkClean wix xs) (enough : xs.length ≤ fuel)
    (events : ∀ i ∈ xs, (slot t.ws i).ev = some (watchOf t.ws i).ev) :
    t.watchListMask empty fuel wix mask = some (maskOf empty mask (xs.map (watchOf t.ws))) := by
  induction xs generalizing wix fuel mask with
  | nil =>
      obtain rfl : wix = 0 := leads.empty_iff.mpr rfl
      rw [FdEventSet.watchListMask]
      rfl
  | cons x xs ih =>
      obtain rfl := leads.head
      have elem : 0 < wix := Nat.pos_of_ne_zero fun zero => List.cons_ne_nil wix xs (leads.empty_iff.mp zero)
      obtain ⟨k, rfl⟩ := Nat.exists_eq_add_one.mpr elem
      obtain ⟨fuel, rfl⟩ := Nat.exists_eq_add_one.mpr (Nat.lt_of_lt_of_le (Nat.succ_pos _) enough)
      rw [FdEventSet.watchListMask, events (k + 1) List.mem_cons_self]
      exact ih leads.tail (Nat.le_of_succ_le_succ enough) fun i member => events i (List.mem_cons_of_mem _ member)

theorem updateLink_end (lays : Lays t heads next lay) :
    t.updateLink = linkSentinel ↔ lay.queue = [] := by
  rw [lays.queue.empty_iff, List.map_eq_nil_iff]

theorem pops {rest : List Nat} (empty : Nat → Bool) (lays : Lays t heads next lay) (queue : lay.queue = ufd :: rest) :
    ∃ t', t.popUpdate empty =
        some ({
          fd := ufd
          mask := maskOf empty 0 (recordOf t lay ufd).watches
          epoch := toldEpoch (maskOf empty 0 (recordOf t lay ufd).watches) (t.fdr ufd).epoch }, t') ∧
      Lays t' heads next { lay with queue := rest } ∧ t'.fdrs.length = t.fdrs.length ∧
      recordOf t' { lay with queue := rest } = Function.update (recordOf t lay) ufd
        { recordOf t lay ufd with
          epoch := keptEpoch (maskOf empty 0 (recordOf t lay ufd).watches) (t.fdr ufd).epoch } := by
  have inside := lays.inside (queue ▸ List.mem_cons_self)
  have leads := lays.queue
  rw [queue, List.map_cons] at leads
  have some : t.updateLink ≠ linkSentinel := fun none => nomatch leads.empty_iff.mp none
  have self : t.updateLink - 1 = ufd := by rw [leads.head]; rfl
  have absent : ufd ∉ rest := by
    have nodup := lays.queue_nodup
    rw [queue] at nodup
    exact (List.nodup_cons.mp nodup).1
  let mask := maskOf empty 0 (recordOf t lay ufd).watches
  have masked : t.watchListMask empty t.ws.length (t.fdr ufd).whead 0 = Option.some mask :=
    masks (lays.slots.lists (.chain ufd)).leads lays.slots.shared.length_le
      fun i member => lays.event (chain_ne_free ufd) member
  let fdi : FdRec := { t.fdr ufd with updateLink := linkClean, epoch := keptEpoch mask (t.fdr ufd).epoch }
  let t' : FdEventSet := { t with updateLink := (t.fdr ufd).updateLink }
  have runs : t.popUpdate empty =
      Option.some ({ fd := ufd, mask, epoch := toldEpoch mask (t.fdr ufd).epoch }, t'.setFdr ufd fdi) := by
    simp only [FdEventSet.popUpdate, if_neg some, self, masked, Option.map_some]
    by_cases none : mask = 0
    · simp only [fdi, toldEpoch, keptEpoch, if_pos none]
      rfl
    · by_cases young : (t.fdr ufd).epoch < userEpoch
      · simp only [fdi, toldEpoch, keptEpoch, if_neg none, if_pos young]
        rfl
      · simp only [fdi, toldEpoch, keptEpoch, if_neg none, if_neg young]
        rfl
  have new : (t'.setFdr ufd fdi).fdr ufd = fdi := FdEventSet.fdr_setFdr_self inside
  have other : ∀ u, u ≠ ufd → (t'.setFdr ufd fdi).fdr u = t.fdr u := fun u other => FdEventSet.fdr_setFdr_ne other
  have whead : ∀ u, ((t'.setFdr ufd fdi).fdr u).whead = (t.fdr u).whead :=
    fun u => FdEventSet.fdr_setFdr_field (t := t') FdRec.whead rfl
  have wtail : ∀ u, ((t'.setFdr ufd fdi).fdr u).wtail = (t.fdr u).wtail :=
    fun u => FdEventSet.fdr_setFdr_field (t := t') FdRec.wtail rfl
  have head : (t'.setFdr ufd fdi).head heads = t.head heads := by
    funext o
    cases o with
    | free => rfl
    | chain u => exact whead u
    | drained i => rfl
  refine ⟨_, runs, ⟨?_, ?_, ?_, ?_, Nat.le_trans (Nat.le_of_eq FdEventSet.setFdr_length) lays.small⟩,
    FdEventSet.setFdr_length, ?_⟩
  · rw [head]
    exact lays.slots
  · intro u final last
    rw [wtail]
    exact lays.tail u final last
  · have tail := leads.tail
    change Leads t.updateLinks linkSentinel (t.fdr ufd).updateLink _ at tail
    refine tail.congr fun l member => ?_
    obtain ⟨u, queued, rfl⟩ := List.mem_map.mp member
    refine congrArg FdRec.updateLink (other u ?_)
    rintro rfl
    exact absent queued
  · intro u
    by_cases same : u = ufd
    · subst same
      rw [new]
      exact iff_of_false (fun dirty => dirty rfl) absent
    · rw [other u same, lays.queued, queue, List.mem_cons]
      exact or_iff_right same
  · exact setFdr_record (t := t') inside

end Lays
end Cotamer.Fd.Table
