import Cotamer.Http.Url

/-! The three parts of a url are exact, whatever was asked of the message before. -/
namespace Cotamer.Http
open Spans Transition

/-- Urls that `make_info` does not refuse. -/
def Allowed (url : Bytes) : Prop :=
  url.head? = some slash ∧ ∀ c ∈ url, isSafe c = true ∨ c = question ∨ c = octothorpe

instance (url : Bytes) : Decidable (Allowed url) := inferInstanceAs (Decidable (_ ∧ _))

/-- `path` ends at the first `?` or `#`, `search` at the first `#`. -/
structure Splits (url path search hash : Bytes) : Prop where
  path_slash : path.head? = some slash
  path_plain : question ∉ path ∧ octothorpe ∉ path
  search_question : search = [] ∨ search.head? = some question
  search_plain : octothorpe ∉ search
  hash_octothorpe : hash = [] ∨ hash.head? = some octothorpe
  whole : path ++ search ++ hash = url

def beforeSearch (url : Bytes) : Bytes := url.takeWhile fun c => c != question && c != octothorpe
def beforeHash (url : Bytes) : Bytes := url.takeWhile (· != octothorpe)

/-- Where the parts end. -/
def pathEnd (url : Bytes) : Nat := (beforeSearch url).length
def searchEnd (url : Bytes) : Nat := (beforeHash url).length

theorem safe_ne (safe : isSafe c = true) : c ≠ question ∧ c ≠ octothorpe := by
  constructor <;> (rintro rfl; revert safe; decide)

/-- The parts after the loop and the last fill. -/
def partsFrom (s : Bytes) (pos fpos : Nat) (f : List (Nat × Nat)) : List (Nat × Nat) :=
  let r := scanUrl s pos fpos f
  fill 3 r.1 r.2.1 r.2.2

def Clean (s : Bytes) : Prop := ∀ c ∈ s, isSafe c = true ∨ c = question ∨ c = octothorpe

theorem partsFrom_hash (clean : Clean s) (pos : Nat) (a b c : Nat × Nat) :
    partsFrom s pos 2 [a, b, c] = [a, b, (b.2, unsigned (pos + s.length))] := by
  induction s generalizing pos with
  | nil => rfl
  | cons d s ih =>
      obtain ⟨char, others⟩ := List.forall_mem_cons.mp clean
      have rest := ih others (pos + 1)
      rw [List.length_cons, Nat.add_comm s.length, ← Nat.add_assoc, ← rest]
      unfold partsFrom
      rcases char with safe | rfl | rfl
      · simp only [scanUrl, if_pos safe]
      · rfl
      · rfl

theorem partsFrom_search (clean : Clean s) (pos : Nat) (a b c : Nat × Nat) :
    partsFrom s pos 1 [a, b, c] = [a, (a.2, unsigned (pos + (beforeHash s).length)),
      (unsigned (pos + (beforeHash s).length), unsigned (pos + s.length))] := by
  induction s generalizing pos with
  | nil => rfl
  | cons d s ih =>
      obtain ⟨char, others⟩ := List.forall_mem_cons.mp clean
      have rest := ih others (pos + 1)
      rw [List.length_cons, Nat.add_comm s.length, ← Nat.add_assoc]
      rcases char with safe | rfl | rfl
      · have here : beforeHash (d :: s) = d :: beforeHash s := by
          simp [beforeHash, (safe_ne safe).2]
        rw [here, List.length_cons, Nat.add_comm (beforeHash s).length, ← Nat.add_assoc, ← rest]
        simp only [partsFrom, scanUrl, if_pos safe]
      · have here : beforeHash (question :: s) = question :: beforeHash s := rfl
        rw [here, List.length_cons, Nat.add_comm (beforeHash s).length, ← Nat.add_assoc, ← rest]
        rfl
      · exact partsFrom_hash others (pos + 1) a (a.2, unsigned pos) c

theorem partsFrom_path (clean : Clean s) (pos : Nat) (a b c : Nat × Nat) :
    partsFrom s pos 0 [a, b, c] = [(0, unsigned (pos + pathEnd s)),
      (unsigned (pos + pathEnd s), unsigned (pos + searchEnd s)),
      (unsigned (pos + searchEnd s), unsigned (pos + s.length))] := by
  induction s generalizing pos with
  | nil => rfl
  | cons d s ih =>
      obtain ⟨char, others⟩ := List.forall_mem_cons.mp clean
      rcases char with safe | rfl | rfl
      · have path : pathEnd (d :: s) = pathEnd s + 1 := by
          simp [pathEnd, beforeSearch, safe_ne safe]
        have search : searchEnd (d :: s) = searchEnd s + 1 := by
          simp [searchEnd, beforeHash, safe_ne safe]
        rw [path, search, List.length_cons, Nat.add_comm s.length, Nat.add_comm (pathEnd s),
          Nat.add_comm (searchEnd s), ← Nat.add_assoc, ← Nat.add_assoc, ← Nat.add_assoc,
          ← ih others (pos + 1)]
        simp only [partsFrom, scanUrl, if_pos safe]
      · have search : searchEnd (question :: s) = (beforeHash s).length + 1 := rfl
        rw [search, List.length_cons, Nat.add_comm s.length, Nat.add_comm (beforeHash s).length,
          ← Nat.add_assoc, ← Nat.add_assoc]
        exact partsFrom_search others (pos + 1) (0, unsigned pos) b c
      · rw [List.length_cons, Nat.add_comm s.length, ← Nat.add_assoc]
        exact partsFrom_hash others (pos + 1) (0, unsigned pos) (unsigned pos, unsigned pos) c

theorem partsFrom_fail (dirty : ¬Clean s) (pos fpos : Nat) (three : f.length = 3) :
    partsFrom s pos fpos f = [(0, 0), (0, 0), (0, 0)] := by
  induction s generalizing pos fpos f with
  | nil => exact absurd (nofun : Clean []) dirty
  | cons d s ih =>
      simp only [partsFrom, scanUrl]
      by_cases safe : isSafe d = true
      · rw [if_pos safe]
        exact ih (fun clean => dirty (List.forall_mem_cons.mpr ⟨.inl safe, clean⟩)) _ _ three
      · rw [if_neg safe]
        by_cases mark : d = question
        · have dirty : ¬Clean s :=
            fun clean => dirty (List.forall_mem_cons.mpr ⟨.inr (.inl mark), clean⟩)
          rw [if_pos mark]
          split
          · exact ih dirty _ _ (by simpa using three)
          · exact ih dirty _ _ three
        · rw [if_neg mark]
          by_cases mark : d = octothorpe
          · rw [if_pos mark]
            have filled : (fill 2 pos fpos f).length = 3 := by
              unfold fill
              induction List.range' fpos (2 - fpos) generalizing f with
              | nil => exact three
              | cons i is more => exact more (by simpa using three)
            exact ih (fun clean => dirty (List.forall_mem_cons.mpr ⟨.inr (.inr mark), clean⟩))
              _ _ filled
          · rw [if_neg mark]
            match f, three with
            | [a, b, c], _ => rfl

/-- The parts, where offsets are kept as `unsigned`. -/
theorem urlParts_eq (url : Bytes) (three : f.length = 3) :
    urlParts url f = if Allowed url then
        [(0, unsigned (pathEnd url)), (unsigned (pathEnd url), unsigned (searchEnd url)),
          (unsigned (searchEnd url), unsigned url.length)]
      else [(0, 0), (0, 0), (0, 0)] := by
  match f, three with
  | [a, b, c], _ =>
    by_cases start : url.head? = some slash
    · have parts : urlParts url [a, b, c] = partsFrom url 0 0 [a, b, c] := by
        simp only [urlParts, if_pos start, partsFrom]
      by_cases clean : Clean url
      · rw [parts, if_pos ⟨start, clean⟩, partsFrom_path clean]
        simp only [Nat.zero_add]
      · rw [parts, if_neg fun allowed => clean allowed.2, partsFrom_fail clean _ _ rfl]
    · simp only [urlParts, if_neg start]
      rw [if_neg fun allowed => start allowed.1]
      rfl

def searchPart (url : Bytes) : Bytes := (beforeHash url).dropWhile (· != question)
def hashPart (url : Bytes) : Bytes := url.dropWhile (· != octothorpe)

theorem beforeSearch_eq (url : Bytes) :
    beforeSearch url = (beforeHash url).takeWhile (· != question) := by
  rw [beforeHash, List.takeWhile_takeWhile]
  apply congrArg (List.takeWhile · url)
  funext c
  by_cases mark : c = question <;> by_cases hash : c = octothorpe <;> simp [mark, hash]

theorem beforeHash_eq (url : Bytes) : beforeSearch url ++ searchPart url = beforeHash url := by
  rw [beforeSearch_eq]
  exact List.takeWhile_append_dropWhile

theorem url_eq (url : Bytes) : beforeSearch url ++ searchPart url ++ hashPart url = url := by
  rw [beforeHash_eq]
  exact List.takeWhile_append_dropWhile

theorem searchEnd_eq (url : Bytes) : searchEnd url = pathEnd url + (searchPart url).length := by
  rw [searchEnd, ← beforeHash_eq, List.length_append]
  rfl

theorem length_eq (url : Bytes) : url.length = searchEnd url + (hashPart url).length := by
  have whole := congrArg List.length (url_eq url)
  rw [beforeHash_eq, List.length_append] at whole
  exact whole.symm

theorem slice_path (url : Bytes) : slice url 0 (pathEnd url) = beforeSearch url := by
  have piece := slice_piece [] (beforeSearch url) (searchPart url ++ hashPart url)
  rwa [List.nil_append, ← List.append_assoc, url_eq, List.length_nil, Nat.zero_add] at piece

theorem slice_search (url : Bytes) : slice url (pathEnd url) (searchEnd url) = searchPart url := by
  have piece := slice_piece (beforeSearch url) (searchPart url) (hashPart url)
  rwa [url_eq, ← List.length_append, beforeHash_eq] at piece

theorem slice_hash (url : Bytes) : slice url (searchEnd url) url.length = hashPart url := by
  have piece := slice_piece (beforeHash url) (hashPart url) []
  rwa [List.append_nil, ← beforeHash_eq, url_eq, beforeHash_eq, ← searchEnd, ← length_eq] at piece

theorem head_dropWhile (p : UInt8 → Bool) (l : Bytes) :
    l.dropWhile p = [] ∨ ∃ c, (l.dropWhile p).head? = some c ∧ p c = false := by
  have stop := List.head?_dropWhile_not p l
  cases rest : l.dropWhile p with
  | nil => exact .inl rfl
  | cons c cs => exact .inr ⟨c, rfl, by simpa [rest] using stop⟩

theorem splits (allowed : Allowed url) :
    Splits url (beforeSearch url) (searchPart url) (hashPart url) where
  path_slash := by
    cases url with
    | nil => exact absurd allowed.1 nofun
    | cons c s =>
        obtain rfl : c = slash := Option.some.inj allowed.1
        rfl
  path_plain := by
    constructor <;>
    · intro member
      have free := List.mem_takeWhile_imp member
      revert free
      decide
  search_question := by
    rcases head_dropWhile (· != question) (beforeHash url) with none | ⟨c, head, stop⟩
    · exact .inl none
    · obtain rfl : c = question := by simpa using stop
      exact .inr head
  search_plain := by
    intro member
    have free := List.mem_takeWhile_imp ((List.dropWhile_sublist _).subset member)
    revert free
    decide
  hash_octothorpe := by
    rcases head_dropWhile (· != octothorpe) url with none | ⟨c, head, stop⟩
    · exact .inl none
    · obtain rfl : c = octothorpe := by simpa using stop
      exact .inr head
  whole := url_eq url

/-- The parts a scan of this url finds. -/
def parts (url : Bytes) : List (Nat × Nat) := urlParts url [(0, 0), (0, 0), (0, 0)]

theorem urlParts_parts (url : Bytes) (three : f.length = 3) : urlParts url f = parts url :=
  (urlParts_eq url three).trans (urlParts_eq url rfl).symm

theorem length_parts (url : Bytes) : (parts url).length = 3 := by
  rw [parts, urlParts_eq url rfl]
  split <;> rfl

/-- A part as `url_field` views it. -/
def viewPart (url : Bytes) (part : Nat × Nat) : Option Bytes :=
  if part.1 = part.2 then some []
  else if part.1 ≤ part.2 then some (slice url part.1 part.2)
  else none

theorem viewPart_slice (order : i ≤ j) : viewPart url (i, j) = some (slice url i j) := by
  unfold viewPart
  split
  · rename_i same
    have same : i = j := same
    rw [slice, same, Nat.sub_self, List.take_zero]
  · rfl

theorem length_viewPart (inside : part.2 ≤ url.length) (viewed : viewPart url part = some view) :
    part.1 + view.length = part.2 := by
  unfold viewPart at viewed
  split at viewed
  · rename_i same
    cases Option.some.inj viewed
    exact same
  · split at viewed
    · rename_i order
      cases Option.some.inj viewed
      rw [length_slice inside]
      omega
    · contradiction

theorem unsigned_small (small : n < 2 ^ 32) : unsigned n = n := Nat.mod_eq_of_lt small

theorem unsigned_le (n : Nat) : unsigned n ≤ n := Nat.mod_le ..

theorem parts_allowed (allowed : Allowed url) : parts url =
    [(0, unsigned (pathEnd url)), (unsigned (pathEnd url), unsigned (searchEnd url)),
      (unsigned (searchEnd url), unsigned url.length)] := by
  rw [parts, urlParts_eq url rfl, if_pos allowed]

/-- What is cached about a url is true of it; the parts are found anew each time. -/
structure Info.Current (inf : Info) (url : Bytes) : Prop where
  three : inf.f.length = 3
  stale : inf.flags &&& infoUrl = 0
  params : inf.flags &&& infoParams ≠ 0 →
    searchParams url ((parts url).getD 1 (0, 0)) = some (inf.qurl, inf.qpairs)

namespace Message

def Cached (m : Message) : Prop := ∀ inf, m.info = some inf → inf.Current m.url

theorem Cached.getD {m : Message} (cached : m.Cached) : (m.info.getD {}).Current m.url := by
  cases info : m.info with
  | none => exact ⟨rfl, rfl, fun flag => absurd rfl flag⟩
  | some inf => exact cached inf info

theorem withInfo_url {m : Message} (cached : m.Cached) : m.withInfo infoUrl =
    some { m with info := some { m.info.getD {} with f := parts m.url } } := by
  have current := cached.getD
  have made : m.makeInfo infoUrl =
      some { m with info := some { m.info.getD {} with f := parts m.url } } := by
    unfold makeInfo
    simp only
    rw [if_pos (show _ ∧ _ from ⟨current.stale, by decide⟩), if_neg fun params => params.2 rfl,
      urlParts_parts _ current.three]
  unfold withInfo
  split
  · rename_i inf info
    rw [if_neg, made]
    rw [(cached inf info).stale]
    decide
  · exact made

theorem flag_cases (flags : BitVec 32) :
    flags &&& infoParams = 0 ∨ flags &&& infoParams = infoParams := by
  have bit : flags &&& infoParams = if flags.getLsbD 1 then infoParams else 0 := BitVec.and_twoPow flags 1
  rw [bit]
  split
  · exact .inr rfl
  · exact .inl rfl

/-- The parameters are scanned once for each url. -/
theorem withInfo_params {m : Message} (cached : m.Cached) :
    (m.withInfo infoParams = some m ∧ ∃ inf, m.info = some inf ∧ inf.flags &&& infoParams ≠ 0) ∨
    m.withInfo infoParams =
      (searchParams m.url ((parts m.url).getD 1 (0, 0))).map fun (qurl, qpairs) =>
        { m with info := some { m.info.getD {} with
            f := parts m.url, qurl, qpairs, flags := (m.info.getD {}).flags ||| infoParams } } := by
  have current := cached.getD
  have made : (m.info.getD {}).flags &&& infoParams = 0 → m.makeInfo infoParams =
      (searchParams m.url ((parts m.url).getD 1 (0, 0))).map fun (qurl, qpairs) =>
        { m with info := some { m.info.getD {} with
            f := parts m.url, qurl, qpairs, flags := (m.info.getD {}).flags ||| infoParams } } := by
    intro unset
    unfold makeInfo
    simp only
    rw [if_pos (show (m.info.getD {}).flags &&& infoUrl = 0 ∧ _ from ⟨current.stale, by decide⟩)]
    rw [if_pos ⟨unset, by decide⟩, urlParts_parts _ current.three]
  cases info : m.info with
  | none =>
      refine .inr ?_
      simp only [info, Option.getD_none] at made
      rw [withInfo, info]
      exact made rfl
  | some inf =>
      simp only [info, Option.getD_some] at made
      rcases flag_cases inf.flags with unset | set
      · refine .inr ?_
        simp only [withInfo, info, unset]
        rw [if_neg (by decide)]
        exact made unset
      · refine .inl ⟨?_, inf, rfl, ?_⟩
        · simp only [withInfo, info, set]
          rfl
        · rw [set]
          decide

theorem fresh_cached {m : Message} (fresh : m.info = none) : m.Cached := by
  intro inf info
  rw [fresh] at info
  contradiction

theorem cleared (flags : BitVec 32) : (flags &&& ~~~3#32) &&& infoUrl = 0 ∧
    (flags &&& ~~~3#32) &&& infoParams = 0 := by
  constructor
  · rw [BitVec.and_assoc, show ~~~3#32 &&& infoUrl = 0#32 by decide, BitVec.and_zero]
    rfl
  · rw [BitVec.and_assoc, show ~~~3#32 &&& infoParams = 0#32 by decide, BitVec.and_zero]
    rfl

theorem step_cached {m : Message} (cached : m.Cached) (moved : m.step access = some m') :
    m'.Cached := by
  cases access with
  | url s =>
      cases Option.some.inj moved
      intro inf info
      obtain ⟨old, was, rfl⟩ := Option.map_eq_some_iff.mp info
      obtain ⟨noUrl, noParams⟩ := cleared old.flags
      exact ⟨(cached old was).three, noUrl, fun flag => absurd noParams flag⟩
  | clear =>
      cases Option.some.inj moved
      intro inf info
      obtain ⟨old, was, rfl⟩ := Option.map_eq_some_iff.mp info
      exact ⟨(cached old was).three, BitVec.zero_and, fun flag => absurd BitVec.zero_and flag⟩
  | urlField field =>
      rw [step, withInfo_url cached] at moved
      cases Option.some.inj moved
      intro inf info
      cases Option.some.inj info
      exact ⟨length_parts _, cached.getD.stale, cached.getD.params⟩
  | searchParams =>
      rcases withInfo_params cached with ⟨same, _⟩ | scanned
      · rw [step, same] at moved
        cases Option.some.inj moved
        exact cached
      · rw [step, scanned] at moved
        obtain ⟨found, params, rfl⟩ := Option.map_eq_some_iff.mp moved
        intro inf info
        cases Option.some.inj info
        refine ⟨length_parts _, ?_, fun _ => params⟩
        show ((m.info.getD {}).flags ||| infoParams) &&& infoUrl = 0
        rw [BitVec.and_or_distrib_right, cached.getD.stale]
        rfl

theorem reached_cached {m₀ m : Message} (fresh : m₀.info = none)
    (path : Reaches step m₀ accesses m) : m.Cached :=
  path.invariant (P := Cached) (fun cached moved => step_cached cached moved) (fresh_cached fresh)

/-- `path`, `search`, `hash` and `has_valid_url` answer with the exact split of the url. -/
def SplitsUrl (m : Message) : Prop :=
  ∃ path search hash valid, m.path = some path ∧ m.search = some search ∧ m.hash = some hash ∧
    m.hasValidUrl = some valid ∧
    (Allowed m.url → Splits m.url path search hash ∧ valid = true) ∧
    (¬Allowed m.url → path = [] ∧ search = [] ∧ hash = [] ∧ valid = false)

theorem Cached.urlField {m : Message} (cached : m.Cached) (field : Nat) :
    m.urlField field = viewPart m.url ((parts m.url).getD field (0, 0)) := by
  rw [Message.urlField, withInfo_url cached]
  rfl

theorem Cached.hasUrlField {m : Message} (cached : m.Cached) (field : Nat) :
    m.hasUrlField field = some (((parts m.url).getD field (0, 0)).1 !=
      ((parts m.url).getD field (0, 0)).2) := by
  rw [Message.hasUrlField, withInfo_url cached]
  rfl

theorem splits_iff {m : Message} (cached : m.Cached) :
    m.SplitsUrl ↔ (Allowed m.url → m.url.length < 2 ^ 32) := by
  have searchInside : searchEnd m.url ≤ m.url.length := by
    have := length_eq m.url
    omega
  have pathInside : pathEnd m.url ≤ searchEnd m.url := by
    have := searchEnd_eq m.url
    omega
  constructor
  · rintro ⟨path, search, hash, valid, pathIs, searchIs, hashIs, _, exact_, _⟩ allowed
    have whole := congrArg List.length (exact_ allowed).1.whole
    simp only [Message.path, Message.search, Message.hash, cached.urlField, parts_allowed allowed,
      List.getD_cons_zero, List.getD_cons_succ] at pathIs searchIs hashIs
    have pathLength := length_viewPart (Nat.le_trans (unsigned_le _)
      (Nat.le_trans pathInside searchInside)) pathIs
    have searchLength := length_viewPart (Nat.le_trans (unsigned_le _) searchInside) searchIs
    have hashLength := length_viewPart (unsigned_le _) hashIs
    simp only [List.length_append] at whole
    have bound : unsigned m.url.length < 2 ^ 32 := Nat.mod_lt _ (by decide)
    simp only at pathLength searchLength hashLength
    omega
  · intro small
    by_cases allowed : Allowed m.url
    · have small := small allowed
      have found : parts m.url = [(0, pathEnd m.url), (pathEnd m.url, searchEnd m.url),
          (searchEnd m.url, m.url.length)] := by
        rw [parts_allowed allowed, unsigned_small (by omega), unsigned_small (by omega),
          unsigned_small small]
      have split := splits allowed
      refine ⟨beforeSearch m.url, searchPart m.url, hashPart m.url, true, ?_, ?_, ?_, ?_,
        fun _ => ⟨split, rfl⟩, fun refused => absurd allowed refused⟩
      · rw [Message.path, cached.urlField, found, ← slice_path]
        exact viewPart_slice (Nat.zero_le _)
      · rw [Message.search, cached.urlField, found, ← slice_search]
        exact viewPart_slice pathInside
      · rw [Message.hash, cached.urlField, found, ← slice_hash]
        exact viewPart_slice searchInside
      · have nonempty : pathEnd m.url ≠ 0 := by
          intro none
          have slash := split.path_slash
          rw [List.eq_nil_of_length_eq_zero none] at slash
          contradiction
        rw [Message.hasValidUrl, cached.hasUrlField, found]
        exact congrArg some (bne_iff_ne.mpr (Ne.symm nonempty))
    · have found : parts m.url = [(0, 0), (0, 0), (0, 0)] := by
        rw [parts, urlParts_eq _ rfl, if_neg allowed]
      refine ⟨[], [], [], false, ?_, ?_, ?_, ?_, fun was => absurd was allowed,
        fun _ => ⟨rfl, rfl, rfl, rfl⟩⟩
      all_goals
        simp only [Message.path, Message.search, Message.hash, Message.hasValidUrl, cached.urlField,
          cached.hasUrlField, found]
        rfl

/-- Whatever was asked of a message and whatever urls it had before, its accessors split the url
it has now, unless that is one of four gigabytes or more. -/
theorem url_split_exact {m₀ m : Message} (fresh : m₀.info = none)
    (path : Reaches step m₀ accesses m) :
    m.SplitsUrl ↔ (Allowed m.url → m.url.length < 2 ^ 32) :=
  splits_iff (reached_cached fresh path)

/-- The url of a request is changed between two looks at its search part. -/
theorem url_split_exact_changed :
    let asked : Message := { url := ascii "/a?b#c" }
    let accesses := [.urlField 1, .searchParams, .url (ascii "/#?"), .urlField 2]
    ∃ m, Reaches step asked accesses m ∧ m.url = ascii "/#?" ∧ m.SplitsUrl := by
  intro asked accesses
  obtain ⟨m, ran⟩ := Option.isSome_iff_exists.mp
    (show (run step asked accesses).isSome = true by decide +kernel)
  have url : m.url = ascii "/#?" := by
    have kept : (run step asked accesses).map Message.url = some (ascii "/#?") := by decide +kernel
    rw [ran] at kept
    exact Option.some.inj kept
  refine ⟨m, run_iff_reaches.mp ran, url, (url_split_exact rfl (run_iff_reaches.mp ran)).mpr ?_⟩
  rw [url]
  decide +kernel

/-- A path of four gigabytes. -/
def longUrl : Bytes := slash :: List.replicate (2 ^ 32 - 1) 97

theorem longUrl_allowed : Allowed longUrl := by
  refine ⟨rfl, fun c member => ?_⟩
  rcases List.mem_cons.mp member with rfl | other
  · exact .inl (by decide)
  · rw [List.eq_of_mem_replicate other]
    exact .inl (by decide)

theorem long_url_not_split : ¬({ url := longUrl } : Message).SplitsUrl := by
  intro split
  have small := (splits_iff (fresh_cached rfl)).mp split longUrl_allowed
  change longUrl.length < 2 ^ 32 at small
  rw [longUrl, List.length_cons, List.length_replicate] at small
  omega

end Message

end Cotamer.Http
