import Cotamer.Fd.Table
import Cotamer.Links

/-! Which lists the slots and the records of a watch table are in. -/
namespace Cotamer.Fd.Table
open Links
open Watches (FdEvent Epoch FdUpdate Watch userEpoch)

/-- What a slot belongs to. -/
inductive Owner where
  | free
  | chain (ufd : Nat)
  | drained (i : Nat)                  -- one of the lists returned by take_watch_list
  deriving DecidableEq

structure Layout where
  held : Owner → List Nat              -- the slots, by their links
  queue : List Nat                     -- the descriptors on the update list

def links (ws : List WatchRec) (wix : Nat) : Nat := (slot ws wix).wlink

/-- One list of slots. Unless they are free, they have events below `next`, older ones first. -/
structure Lists (ws : List WatchRec) (next : Nat) (o : Owner) (first : Nat) (xs : List Nat) : Prop where
  leads : Leads (links ws) linkClean first xs
  made : o ≠ .free → ∀ wix ∈ xs, ∃ e < next, (slot ws wix).ev = some e
  ordered : o ≠ .free → xs.Pairwise fun a b => ∀ e ∈ (slot ws a).ev, ∀ e' ∈ (slot ws b).ev, e < e'

/-- Every slot is in one list. -/
structure Slots (ws : List WatchRec) (head : Owner → Nat) (next : Nat) (held : Owner → List Nat) : Prop where
  lists : ∀ o, Lists ws next o (head o) (held o)
  shared : Shared ws.length held

namespace FdEventSet

/-- The link to the first slot of an owner; `heads` are the lists that are being drained. -/
def head (t : FdEventSet) (heads : List Nat) : Owner → Nat
  | .free => t.freeWlink
  | .chain ufd => (t.fdr ufd).whead
  | .drained i => heads.getD i linkClean

def updateLinks (t : FdEventSet) (link : Nat) : Nat := (t.fdr (link - 1)).updateLink

end FdEventSet

structure Lays (t : FdEventSet) (heads : List Nat) (next : Nat) (lay : Layout) : Prop where
  slots : Slots t.ws (t.head heads) next lay.held
  tail : ∀ ufd, ∀ wix ∈ (lay.held (.chain ufd)).getLast?, (t.fdr ufd).wtail = wix
  queue : Leads t.updateLinks linkSentinel t.updateLink (lay.queue.map (· + 1))
  queued : ∀ ufd, (t.fdr ufd).updateLink ≠ linkClean ↔ ufd ∈ lay.queue
  small : t.fdrs.length ≤ 2 ^ 31

section slots

variable {ws : List WatchRec} {wix i link : Nat} {wr : WatchRec}

@[simp] theorem length_setSlot : (setSlot ws wix wr).length = ws.length := List.length_set

@[simp] theorem length_setLink : (setLink ws wix link).length = ws.length := length_setSlot

theorem slot_setSlot_self (low : 1 ≤ wix) (high : wix ≤ ws.length) : slot (setSlot ws wix wr) wix = wr := by
  have inside : wix - 1 < ws.length := by omega
  simp [slot, setSlot, inside]

theorem slot_setSlot_ne (low : 1 ≤ wix) (low' : 1 ≤ i) (other : i ≠ wix) :
    slot (setSlot ws wix wr) i = slot ws i := by
  have apart : wix - 1 ≠ i - 1 := by omega
  simp [slot, setSlot, apart]

theorem slot_append (low : 1 ≤ wix) (high : wix ≤ ws.length) : slot (ws ++ [wr]) wix = slot ws wix := by
  have inside : wix - 1 < ws.length := by omega
  simp [slot, List.getElem?_append_left inside]

theorem slot_append_new : slot (ws ++ [wr]) (ws.length + 1) = wr := by
  simp [slot]

end slots

namespace FdEventSet

variable {t : FdEventSet} {ufd u : Nat} {fdi : FdRec}

theorem fdr_setFdr_self (inside : ufd < t.fdrs.length) : (t.setFdr ufd fdi).fdr ufd = fdi := by
  simp [fdr, setFdr, inside]

theorem fdr_setFdr_ne (other : u ≠ ufd) : (t.setFdr ufd fdi).fdr u = t.fdr u := by
  simp [fdr, setFdr, Ne.symm other]

theorem fdr_outside (outside : t.fdrs.length ≤ ufd) : t.fdr ufd = {} := by
  simp [fdr, outside]

@[simp] theorem setFdr_ws : (t.setFdr ufd fdi).ws = t.ws := rfl

@[simp] theorem setFdr_freeWlink : (t.setFdr ufd fdi).freeWlink = t.freeWlink := rfl

@[simp] theorem setFdr_updateLink : (t.setFdr ufd fdi).updateLink = t.updateLink := rfl

@[simp] theorem setFdr_length : (t.setFdr ufd fdi).fdrs.length = t.fdrs.length := List.length_set

/-- The record changes in `f` of its fields only. -/
theorem fdr_setFdr_field {β : Type*} (f : FdRec → β) (same : f fdi = f (t.fdr ufd)) :
    f ((t.setFdr ufd fdi).fdr u) = f (t.fdr u) := by
  by_cases mine : u = ufd
  · subst mine
    by_cases inside : u < t.fdrs.length
    · rw [fdr_setFdr_self inside, same]
    · have outside := Nat.not_lt.mp inside
      rw [fdr_outside (by rwa [setFdr_length]), fdr_outside outside]
  · rw [fdr_setFdr_ne mine]

end FdEventSet

/-! What happens to the slots. -/

section lists

variable {ws ws' : List WatchRec} {head : Owner → Nat} {next first wix : Nat} {held : Owner → List Nat}
  {o p : Owner} {xs : List Nat}

theorem Lists.keep (lists : Lists ws next o first xs) (same : ∀ i ∈ xs, slot ws' i = slot ws i) :
    Lists ws' next o first xs where
  leads := lists.leads.congr fun i member => congrArg WatchRec.wlink (same i member)
  made used wix member := by
    rw [same wix member]
    exact lists.made used wix member
  ordered used := by
    refine (lists.ordered used).imp_of_mem ?_
    intro a b mine theirs before
    rwa [same a mine, same b theirs]

theorem Lists.later (lists : Lists ws next o first xs) (later : next ≤ next') : Lists ws next' o first xs where
  leads := lists.leads
  made used wix member := by
    obtain ⟨e, before, ev⟩ := lists.made used wix member
    exact ⟨e, Nat.lt_of_lt_of_le before later, ev⟩
  ordered := lists.ordered

theorem Lists.tail (lists : Lists ws next o first (wix :: xs)) : Lists ws next o (links ws wix) xs where
  leads := lists.leads.tail
  made used i member := lists.made used i (List.mem_cons_of_mem wix member)
  ordered used := (List.pairwise_cons.mp (lists.ordered used)).2

namespace Slots

theorem single (slots : Slots ws head next held) (member : wix ∈ held o) (other : wix ∈ held p) : p = o :=
  slots.shared.single wix p o other member

/-- The first slot of a list is freed. -/
theorem release (slots : Slots ws head next held) (list : held o = wix :: xs) (used : o ≠ .free) :
    Slots (setSlot ws wix { slot ws wix with ev := none, wlink := head .free })
      (Function.update (Function.update head o (links ws wix)) .free wix) next
      (Function.update (Function.update held o xs) .free (wix :: held .free)) := by
  have member : wix ∈ held o := list ▸ List.mem_cons_self
  obtain ⟨low, high⟩ := slots.shared.valid member
  have fresh : wix ∉ xs := by
    have nodup := slots.shared.nodup o
    rw [list] at nodup
    exact (List.nodup_cons.mp nodup).1
  have others : ∀ i p, i ∈ held p → i ≠ wix →
      slot (setSlot ws wix { slot ws wix with ev := none, wlink := head .free }) i = slot ws i :=
    fun i p valid other => slot_setSlot_ne low (slots.shared.valid valid).1 other
  have apart : ∀ p, p ≠ o → ∀ i ∈ held p, i ≠ wix := by
    rintro p other i mine rfl
    exact other (slots.single member mine)
  refine ⟨fun p => ?_, ?_⟩
  · by_cases free : p = .free
    · subst free
      rw [Function.update_self, Function.update_self]
      have rest := (slots.lists .free).keep fun i mine => others i .free mine (apart .free used.symm i mine)
      refine ⟨Leads.cons ?_ (Nat.pos_iff_ne_zero.mp low), fun no => absurd rfl no, fun no => absurd rfl no⟩
      rw [links, slot_setSlot_self low high]
      exact rest.leads
    · rw [Function.update_of_ne free, Function.update_of_ne free]
      by_cases mine : p = o
      · subst mine
        rw [Function.update_self, Function.update_self]
        have whole := slots.lists p
        rw [list] at whole
        apply whole.tail.keep
        intro i later
        refine others i p (list ▸ List.mem_cons_of_mem wix later) ?_
        rintro rfl
        exact fresh later
      · rw [Function.update_of_ne mine, Function.update_of_ne mine]
        exact (slots.lists p).keep fun i member => others i p member (apart p mine i member)
  · rw [length_setSlot]
    refine slots.shared.exchange used ?_ ?_
    · rw [Function.update_self, Function.update_of_ne used, Function.update_self, list]
      exact List.perm_middle
    · intro p other free
      rw [Function.update_of_ne free, Function.update_of_ne other]

/-- A slot that no list uses joins a chain. -/
theorem join (slots : Slots ws head next held) {ufd free : Nat} {rest : List Nat} {mask : FdEvent}
    (shared : Shared ws'.length
      (Function.update (Function.update held .free rest) (.chain ufd) (held (.chain ufd) ++ [wix])))
    (fresh : ∀ p, p ≠ .free → wix ∉ held p) (used : wix ∉ rest) (sub : ∀ i ∈ rest, i ∈ held .free)
    (left : Leads (links ws) linkClean free rest)
    (mine : slot ws' wix = { ev := next, mask, wlink := linkClean })
    (last : ∀ x ∈ (held (.chain ufd)).getLast?, slot ws' x = { slot ws x with wlink := wix })
    (others : ∀ p, ∀ i ∈ held p, i ≠ wix → i ∉ (held (.chain ufd)).getLast? → slot ws' i = slot ws i) :
    Slots ws'
      (Function.update (Function.update head .free free) (.chain ufd)
        (if held (.chain ufd) = [] then wix else head (.chain ufd)))
      (next + 1)
      (Function.update (Function.update held .free rest) (.chain ufd) (held (.chain ufd) ++ [wix])) := by
  have elsewhere : ∀ p, p ≠ .chain ufd → ∀ i ∈ held p, i ∉ (held (.chain ufd)).getLast? := by
    intro p other i member final
    exact other (slots.single (List.mem_of_getLast? final) member)
  refine ⟨fun p => ?_, shared⟩
  by_cases chain : p = .chain ufd
  · subst chain
    rw [Function.update_self, Function.update_self]
    have old := slots.lists (.chain ufd)
    have notMine := fresh (.chain ufd) nofun
    have elem : wix ≠ linkClean := Nat.pos_iff_ne_zero.mp (shared.valid (o := .chain ufd)
      (by rw [Function.update_self]; exact List.mem_append_right _ (List.mem_singleton_self wix))).1
    have event : ∀ i ∈ held (.chain ufd), (slot ws' i).ev = (slot ws i).ev := by
      intro i member
      by_cases final : i ∈ (held (.chain ufd)).getLast?
      · rw [last i final]
      · rw [others _ i member (fun same => notMine (same ▸ member)) final]
    refine ⟨?_, fun _ i member => ?_, fun _ => ?_⟩
    · rcases List.eq_nil_or_concat (held (.chain ufd)) with none | ⟨front, x, some⟩
      · rw [if_pos none, none]
        apply Leads.cons _ elem
        rw [links, mine]
        exact .nil
      · rw [List.concat_eq_append] at some
        have final : x ∈ (held (.chain ufd)).getLast? := by rw [some]; simp
        have leads := old.leads
        have nodup := slots.shared.nodup (.chain ufd)
        rw [if_neg (by rw [some]; simp)]
        rw [some] at leads nodup notMine ⊢
        apply leads.concat
        · intro z member
          have notLast : z ≠ x := fun same =>
            (List.nodup_append.mp nodup).2.2 z member x (List.mem_singleton_self x) same
          rw [links, links, others (.chain ufd) z]
          · rw [some]
            exact List.mem_append_left _ member
          · rintro rfl
            exact notMine (List.mem_append_left _ member)
          · rw [some]
            simp [notLast.symm]
        · rw [links, last x final]
        · rw [links, mine]
        · exact elem
    · rcases List.mem_append.mp member with before | now
      · rw [event i before]
        obtain ⟨e, small, ev⟩ := old.made nofun i before
        exact ⟨e, Nat.lt_succ_of_lt small, ev⟩
      · rw [List.mem_singleton.mp now, mine]
        exact ⟨next, Nat.lt_succ_self next, rfl⟩
    · refine List.pairwise_append.mpr ⟨?_, List.pairwise_singleton _ _, ?_⟩
      · refine (old.ordered nofun).imp_of_mem ?_
        intro a b first second before
        rwa [event a first, event b second]
      · intro a before b now
        rw [List.mem_singleton.mp now, mine, event a before]
        obtain ⟨e, small, ev⟩ := old.made nofun a before
        rw [ev]
        rintro _ ⟨⟩ _ ⟨⟩
        exact small
  · rw [Function.update_of_ne chain, Function.update_of_ne chain]
    by_cases free : p = .free
    · subst free
      rw [Function.update_self, Function.update_self]
      refine @Lists.keep ws _ _ _ _ _ ⟨left, fun no => absurd rfl no, fun no => absurd rfl no⟩ ?_
      intro i member
      refine others .free i (sub i member) ?_ (elsewhere _ chain i (sub i member))
      rintro rfl
      exact used member
    · rw [Function.update_of_ne free, Function.update_of_ne free]
      refine ((slots.lists p).keep fun i member => ?_).later (Nat.le_succ next)
      refine others p i member ?_ (elsewhere p chain i member)
      rintro rfl
      exact fresh p free member

/-- A chain is split in two, and one part is drained. -/
theorem part (slots : Slots ws head next held) {ufd n whead fdhead : Nat} {taken left : List Nat}
    (unused : held (.drained n) = []) (length : ws'.length = ws.length)
    (same : ∀ i, 1 ≤ i → (slot ws' i).ev = (slot ws i).ev)
    (others : ∀ i, 1 ≤ i → i ∉ held (.chain ufd) → slot ws' i = slot ws i)
    (perm : (left ++ taken).Perm (held (.chain ufd)))
    (leftSub : left.Sublist (held (.chain ufd))) (takenSub : taken.Sublist (held (.chain ufd)))
    (leftLeads : Leads (links ws') linkClean fdhead left)
    (takenLeads : Leads (links ws') linkClean whead taken) :
    Slots ws' (Function.update (Function.update head (.chain ufd) fdhead) (.drained n) whead) next
      (Function.update (Function.update held (.chain ufd) left) (.drained n) taken) := by
  have distinct : Owner.chain ufd ≠ .drained n := nofun
  have sub : ∀ {ys : List Nat} {first : Nat} {p : Owner}, p ≠ .free → ys.Sublist (held (.chain ufd)) →
      Leads (links ws') linkClean first ys → Lists ws' next p first ys := by
    intro ys first p used sublist leads
    have old := slots.lists (.chain ufd)
    have event : ∀ i ∈ ys, (slot ws' i).ev = (slot ws i).ev :=
      fun i member => same i (slots.shared.valid (sublist.mem member)).1
    refine ⟨leads, fun _ i member => ?_, fun _ => ?_⟩
    · rw [event i member]
      exact old.made nofun i (sublist.mem member)
    · refine ((old.ordered nofun).sublist sublist).imp_of_mem ?_
      intro a b first second before
      rwa [event a first, event b second]
  refine ⟨fun p => ?_, ?_⟩
  · by_cases drained : p = .drained n
    · subst drained
      rw [Function.update_self, Function.update_self]
      exact sub nofun takenSub takenLeads
    · rw [Function.update_of_ne drained, Function.update_of_ne drained]
      by_cases chain : p = .chain ufd
      · subst chain
        rw [Function.update_self, Function.update_self]
        exact sub nofun leftSub leftLeads
      · rw [Function.update_of_ne chain, Function.update_of_ne chain]
        apply (slots.lists p).keep
        intro i member
        exact others i (slots.shared.valid member).1 fun theirs => chain (slots.single theirs member)
  · rw [length]
    refine slots.shared.exchange distinct ?_ ?_
    · rw [Function.update_of_ne distinct, Function.update_self, Function.update_self, unused,
        List.append_nil]
      exact perm
    · intro p chain drained
      rw [Function.update_of_ne drained, Function.update_of_ne chain]

end Slots
end lists

/-! The loop of `take_watch_list`. -/

/-- A list whose last link is still to be stored in its place. -/
def Hangs (ws : List WatchRec) (head : Nat) : Place → List Nat → Prop
  | .head, xs => xs = []
  | .slot wix, xs => ∃ front, xs = front ++ [wix] ∧ Path (links ws) head xs (links ws wix)

section taking

variable {ws ws' : List WatchRec} {head link wix fuel : Nat} {xs : List Nat} {place : Place}

theorem Hangs.congr (hangs : Hangs ws head place xs) (same : ∀ i ∈ xs, slot ws' i = slot ws i) :
    Hangs ws' head place xs := by
  cases place with
  | head => exact hangs
  | slot wix =>
      obtain ⟨front, rfl, path⟩ := hangs
      have last := same wix (List.mem_append_right front (List.mem_singleton_self wix))
      refine ⟨front, rfl, ?_⟩
      rw [links, last]
      exact path.congr fun i member => congrArg WatchRec.wlink (same i member)

/-- Links change, those of slots outside `xs` apart. -/
structure Relinked (ws ws' : List WatchRec) (xs : List Nat) : Prop where
  length : ws'.length = ws.length
  ev : ∀ i, 1 ≤ i → (slot ws' i).ev = (slot ws i).ev
  mask : ∀ i, 1 ≤ i → (slot ws' i).mask = (slot ws i).mask
  others : ∀ i, 1 ≤ i → i ∉ xs → slot ws' i = slot ws i

theorem Relinked.refl (ws : List WatchRec) (xs : List Nat) : Relinked ws ws xs :=
  ⟨rfl, fun _ _ => rfl, fun _ _ => rfl, fun _ _ _ => rfl⟩

theorem Relinked.trans {ws'' : List WatchRec} (first : Relinked ws ws' xs)
    (second : Relinked ws' ws'' xs) : Relinked ws ws'' xs where
  length := second.length.trans first.length
  ev i low := (second.ev i low).trans (first.ev i low)
  mask i low := (second.mask i low).trans (first.mask i low)
  others i low other := (second.others i low other).trans (first.others i low other)

theorem Relinked.mono {ys : List Nat} (relinked : Relinked ws ws' xs) (sub : ∀ i ∈ xs, i ∈ ys) :
    Relinked ws ws' ys where
  length := relinked.length
  ev := relinked.ev
  mask := relinked.mask
  others i low other := relinked.others i low fun member => other (sub i member)

theorem setLink_relinked (low : 1 ≤ wix) (high : wix ≤ ws.length) : Relinked ws (setLink ws wix link) [wix] := by
  have mine : slot (setLink ws wix link) wix = { slot ws wix with wlink := link } := slot_setSlot_self low high
  have other : ∀ i, 1 ≤ i → i ≠ wix → slot (setLink ws wix link) i = slot ws i :=
    fun i low' other => slot_setSlot_ne low low' other
  refine ⟨length_setLink, fun i low' => ?_, fun i low' => ?_, fun i low' apart => other i low' ?_⟩
  · by_cases same : i = wix
    · rw [same, mine]
    · rw [other i low' same]
  · by_cases same : i = wix
    · rw [same, mine]
    · rw [other i low' same]
  · exact fun same => apart (List.mem_singleton.mpr same)

/-- A store ends the list with the link. -/
theorem store_ends (hangs : Hangs ws head place xs) (nodup : xs.Nodup)
    (valid : ∀ i ∈ xs, 1 ≤ i ∧ i ≤ ws.length) :
    Path (links (place.store link head ws).2) (place.store link head ws).1 xs link ∧
      Relinked ws (place.store link head ws).2 xs := by
  cases place with
  | head =>
      obtain rfl : xs = [] := hangs
      exact ⟨rfl, .refl ws []⟩
  | slot wix =>
      obtain ⟨front, rfl, path⟩ := hangs
      have member : wix ∈ front ++ [wix] := List.mem_append_right front (List.mem_singleton_self wix)
      obtain ⟨low, high⟩ := valid wix member
      have relinked : Relinked ws (setLink ws wix link) [wix] := setLink_relinked low high
      refine ⟨?_, relinked.mono fun i mine => List.mem_append_right front mine⟩
      have mine : links (setLink ws wix link) wix = link := congrArg WatchRec.wlink (slot_setSlot_self low high)
      have redirected := @Path.redirect _ _ (links (setLink ws wix link)) _ _ _ _ path fun i before => by
        refine congrArg WatchRec.wlink (relinked.others i (valid i (List.mem_append_left _ before)).1 ?_)
        exact fun same => (List.nodup_append.mp nodup).2.2 i before wix (List.mem_singleton_self wix)
          (List.mem_singleton.mp same)
      rwa [mine] at redirected

/-- What the loop has done with the slots `taken` and `left`, while `rest` is to come. -/
structure Parted (ws : List WatchRec) (v : Taking) (taken left rest : List Nat) : Prop where
  relinked : Relinked ws v.ws (taken ++ left)
  takenHangs : Hangs v.ws v.whead v.wpprev taken
  leftHangs : Hangs v.ws v.fdhead v.fdpprev left
  wtail : v.wtail = left.getLast?.getD linkClean
  nodup : (taken ++ left ++ rest).Nodup
  valid : ∀ i ∈ taken ++ left ++ rest, 1 ≤ i ∧ i ≤ ws.length

variable {v : Taking} {taken left rest : List Nat}

namespace Parted

theorem takenNodup (parted : Parted ws v taken left rest) : taken.Nodup :=
  (List.nodup_append.mp (List.nodup_append.mp parted.nodup).1).1

theorem leftNodup (parted : Parted ws v taken left rest) : left.Nodup :=
  (List.nodup_append.mp (List.nodup_append.mp parted.nodup).1).2.1

theorem apart (parted : Parted ws v taken left rest) (member : i ∈ left) : i ∉ taken :=
  fun other => (List.nodup_append.mp (List.nodup_append.mp parted.nodup).1).2.2 i other i member rfl

theorem takenValid (parted : Parted ws v taken left rest) : ∀ i ∈ taken, 1 ≤ i ∧ i ≤ v.ws.length := by
  intro i member
  rw [parted.relinked.length]
  exact parted.valid i (List.mem_append_left _ (List.mem_append_left _ member))

theorem leftValid (parted : Parted ws v taken left rest) : ∀ i ∈ left, 1 ≤ i ∧ i ≤ v.ws.length := by
  intro i member
  rw [parted.relinked.length]
  exact parted.valid i (List.mem_append_left _ (List.mem_append_right _ member))

/-- A link is stored at the end of what was taken. -/
theorem storeTaken (parted : Parted ws v taken left rest) (link : Nat) :
    Path (links (v.storeTaken link).ws) (v.storeTaken link).whead taken link ∧
      Relinked ws (v.storeTaken link).ws (taken ++ left) ∧
      Hangs (v.storeTaken link).ws v.fdhead v.fdpprev left := by
  obtain ⟨path, relinked⟩ := store_ends parted.takenHangs parted.takenNodup parted.takenValid
  refine ⟨path, parted.relinked.trans (relinked.mono fun i => List.mem_append_left left), ?_⟩
  exact parted.leftHangs.congr fun i member =>
    relinked.others i (parted.leftValid i member).1 (parted.apart member)

/-- A link is stored at the end of what was left. -/
theorem storeLeft (parted : Parted ws v taken left rest) (link : Nat) :
    Path (links (v.storeLeft link).ws) (v.storeLeft link).fdhead left link ∧
      Relinked ws (v.storeLeft link).ws (taken ++ left) ∧
      Hangs (v.storeLeft link).ws v.whead v.wpprev taken := by
  obtain ⟨path, relinked⟩ := store_ends parted.leftHangs parted.leftNodup parted.leftValid
  refine ⟨path, parted.relinked.trans (relinked.mono fun i => List.mem_append_right taken), ?_⟩
  exact parted.takenHangs.congr fun i member =>
    relinked.others i (parted.takenValid i member).1 fun theirs => parted.apart theirs member

theorem take (parted : Parted ws v taken left (wix :: rest)) :
    Parted ws { v.storeTaken wix with wpprev := .slot wix } (taken ++ [wix]) left rest := by
  obtain ⟨path, relinked, hangs⟩ := parted.storeTaken wix
  have order : (taken ++ left ++ wix :: rest).Perm (taken ++ [wix] ++ left ++ rest) := by
    simp only [List.append_assoc, List.singleton_append]
    exact (List.perm_middle.symm.append_left taken).symm
  refine ⟨relinked.mono ?_, ⟨taken, rfl, path_append.mpr ⟨wix, path, rfl, rfl⟩⟩, hangs, parted.wtail,
    order.nodup_iff.mp parted.nodup, fun i member => parted.valid i (order.mem_iff.mpr member)⟩
  intro i member
  simp only [List.mem_append] at member ⊢
  tauto

theorem leave (parted : Parted ws v taken left (wix :: rest)) :
    Parted ws { v.storeLeft wix with wtail := wix, fdpprev := .slot wix } taken (left ++ [wix]) rest := by
  obtain ⟨path, relinked, hangs⟩ := parted.storeLeft wix
  have order : taken ++ left ++ wix :: rest = taken ++ (left ++ [wix]) ++ rest := by simp
  refine ⟨relinked.mono ?_, hangs, ⟨left, rfl, path_append.mpr ⟨wix, path, rfl, rfl⟩⟩, by simp,
    order ▸ parted.nodup, fun i member => parted.valid i (order ▸ member)⟩
  intro i member
  simp only [List.mem_append] at member ⊢
  tauto

/-- Both lists are ended. -/
theorem finish (parted : Parted ws v taken left rest) :
    Leads (links ((v.storeTaken linkClean).storeLeft linkClean).ws) linkClean
        ((v.storeTaken linkClean).storeLeft linkClean).whead taken ∧
      Leads (links ((v.storeTaken linkClean).storeLeft linkClean).ws) linkClean
        ((v.storeTaken linkClean).storeLeft linkClean).fdhead left ∧
      Relinked ws ((v.storeTaken linkClean).storeLeft linkClean).ws (taken ++ left) := by
  obtain ⟨path, relinked, hangs⟩ := parted.storeTaken linkClean
  have valid : ∀ i ∈ left, 1 ≤ i ∧ i ≤ (v.storeTaken linkClean).ws.length := by
    rw [relinked.length, ← parted.relinked.length]
    exact parted.leftValid
  obtain ⟨path', relinked'⟩ := store_ends hangs parted.leftNodup valid
  refine ⟨⟨path.congr fun i member => congrArg WatchRec.wlink ?_, fun zero => ?_⟩, ⟨path', fun zero => ?_⟩,
    relinked.trans (relinked'.mono fun i => List.mem_append_right taken)⟩
  · exact relinked'.others i (parted.takenValid i member).1 fun theirs => parted.apart theirs member
  · exact absurd (parted.takenValid linkClean zero).1 (by decide)
  · exact absurd (valid linkClean zero).1 (by decide)

end Parted

/-- The loop ends and splits the chain. -/
theorem loop_parts {wanted : WatchRec → Option Bool} {w : Nat → Bool} (parted : Parted ws v taken left rest)
    (leads : Leads (links ws) linkClean wix rest) (decided : ∀ i ∈ rest, wanted (slot ws i) = some (w i))
    (enough : rest.length ≤ fuel) : ∃ v', Taking.loop wanted fuel wix v = some v' ∧
      Parted ws v' (taken ++ rest.filter w) (left ++ rest.filter (!w ·)) [] := by
  induction rest generalizing fuel wix v taken left with
  | nil =>
      obtain rfl : wix = 0 := leads.empty_iff.mpr rfl
      refine ⟨v, by rw [Taking.loop], ?_⟩
      simpa using parted
  | cons x rest ih =>
      obtain rfl := leads.head
      obtain ⟨low, _⟩ := parted.valid wix (List.mem_append_right _ List.mem_cons_self)
      obtain ⟨k, rfl⟩ := Nat.exists_eq_add_one.mpr (low : 0 < wix)
      obtain ⟨fuel, rfl⟩ := Nat.exists_eq_add_one.mpr (Nat.lt_of_lt_of_le (Nat.succ_pos _) enough)
      have untouched : slot v.ws (k + 1) = slot ws (k + 1) := by
        refine parted.relinked.others (k + 1) low fun member => ?_
        exact (List.nodup_append.mp parted.nodup).2.2 _ member _ List.mem_cons_self rfl
      have later : ∀ i ∈ rest, wanted (slot ws i) = some (w i) :=
        fun i member => decided i (List.mem_cons_of_mem _ member)
      rw [Taking.loop, untouched, decided (k + 1) List.mem_cons_self]
      cases chosen : w (k + 1) with
      | true =>
          rw [List.filter_cons_of_pos chosen, List.filter_cons_of_neg (by simp [chosen])]
          obtain ⟨v', runs, parts⟩ := ih parted.take leads.tail later (Nat.le_of_succ_le_succ enough)
          refine ⟨v', runs, ?_⟩
          simpa using parts
      | false =>
          rw [List.filter_cons_of_neg (by simp [chosen]), List.filter_cons_of_pos (by simp [chosen])]
          obtain ⟨v', runs, parts⟩ := ih parted.leave leads.tail later (Nat.le_of_succ_le_succ enough)
          refine ⟨v', runs, ?_⟩
          simpa using parts

end taking
end Cotamer.Fd.Table
