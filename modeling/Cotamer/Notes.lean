import Cotamer.Http.Message
import Mathlib

/-! The notes that `jsond` serves, and what its requests do to them. -/
namespace Cotamer.Notes
open Http Transition

inductive Json where
  | null
  | bool (b : Bool)
  | number (n : Nat)
  | other (text : Bytes)
  | string (s : Bytes)
  | array (l : List Json)
  | object (fields : List (Bytes × Json))

def Json.find : Json → Bytes → Option Json
  | .object fields, key => fields.lookup key
  | _, _ => none

structure Note where
  id : Nat
  title : Bytes
  body : Bytes
  deriving DecidableEq, Repr

/-- `to_json` -/
def Note.toJson (n : Note) : Json :=
  .object [(ascii "id", .number n.id), (ascii "title", .string n.title), (ascii "body", .string n.body)]

/-- The map of notes is listed in the order of the ids. -/
structure NotesDb where
  notes : List Note := []
  nextId : Nat := 1
  deriving DecidableEq, Repr

namespace NotesDb

variable (db : NotesDb)

def find (id : Nat) : Option Note := db.notes.find? (·.id = id)

/-- `emplace` finds the note that has the id already. -/
def create (title body : Bytes) : Note × NotesDb :=
  let id := db.nextId
  let db := { db with nextId := (id + 1) % 2 ^ 64 }
  match db.find id with
  | some n => (n, db)
  | none =>
    let n : Note := ⟨id, title, body⟩
    (n, { db with notes := db.notes.orderedInsert (·.id ≤ ·.id) n })

def erase (id : Nat) : Bool × NotesDb :=
  ((db.find id).isSome, { db with notes := db.notes.filter (·.id ≠ id) })

/-- A note is written through its pointer. -/
def write (n : Note) : NotesDb := { db with notes := db.notes.map fun m => if m.id = n.id then n else m }

end NotesDb

/-- What is read of an `http_message`. -/
structure Request where
  method : UInt8
  path : Bytes
  body : Bytes := []
  deriving DecidableEq, Repr

structure Response where
  status : Nat
  body : Json

def httpDelete : UInt8 := 0
def httpGet : UInt8 := 1
def httpPost : UInt8 := 3
def httpPut : UInt8 := 4

def makeResponse (status : Nat) (body : Json) : Response := ⟨status, body⟩

def errorResponse (status : Nat) (msg : Bytes) : Response :=
  makeResponse status (.object [(ascii "error", .string msg), (ascii "status", .number status)])

/-- `from_chars` for 64-bit numbers: the number, and what is left. -/
def fromChars (s : Bytes) : Option (Nat × Bytes) :=
  let digits := s.takeWhile fun c => 48 ≤ c ∧ c ≤ 57
  if digits = [] then none
  else
    let n := digits.foldl (fun n c => n * 10 + (c.toNat - 48)) 0
    if n < 2 ^ 64 then some (n, s.drop digits.length) else none

def parseNoteId (path : Bytes) : Option Nat :=
  let pre := ascii "/notes/"
  if pre.isPrefixOf path then
    let rest := path.drop pre.length
    if rest = [] then none
    else
      match fromChars rest with
      | some (id, []) => some id
      | _ => none
  else none

/-- The second half of a PUT. -/
def putBody (db : NotesDb) (n : Note) (body : Json) : Response × NotesDb :=
  match body.find (ascii "body") with
  | some (.string s) =>
    let n := { n with body := s }
    (makeResponse 200 n.toJson, db.write n)
  | some _ => (errorResponse 400 (ascii "body must be a string"), db)
  | none => (makeResponse 200 n.toJson, db)

/-- Fields that are missing are left alone. -/
def putNote (db : NotesDb) (n : Note) (body : Json) : Response × NotesDb :=
  match body.find (ascii "title") with
  | some (.string s) =>
    let n := { n with title := s }
    putBody (db.write n) n body
  | some _ => (errorResponse 400 (ascii "title must be a string"), db)
  | none => putBody db n body

def stats (db : NotesDb) : Json :=
  .object [
    (ascii "count", .number db.notes.length),
    (ascii "total_text_bytes", .number (db.notes.map fun n => n.title.length + n.body.length).sum),
    (ascii "recent_ids", .array ((db.notes.reverse.take 5).map fun n => .number n.id)),
    (ascii "server", .object [(ascii "name", .string (ascii "jsond")), (ascii "version", .string (ascii "0.1"))])]

/-- `json::parse`, which throws what its error says. -/
abbrev Parse := Bytes → Except Bytes Json

/-- `/notes` -/
def handleNotes (parse : Parse) (req : Request) (db : NotesDb) : Response × NotesDb :=
  if req.method = httpGet then
    (makeResponse 200 (.object [(ascii "notes", .array (db.notes.map Note.toJson))]), db)
  else if req.method = httpPost then
    match parse req.body with
    | .error what => (errorResponse 400 (ascii "invalid JSON: " ++ what), db)
    | .ok body =>
      match body.find (ascii "title"), body.find (ascii "body") with
      | some (.string title), some (.string text) =>
        let (n, db) := db.create title text
        (makeResponse 201 n.toJson, db)
      | _, _ => (errorResponse 400 (ascii "expected \x7b\"title\": string, \"body\": string\x7d"), db)
  else (errorResponse 405 (ascii "method not allowed on /notes"), db)

/-- `/notes/<id>` -/
def handleNote (parse : Parse) (req : Request) (id : Nat) (db : NotesDb) : Response × NotesDb :=
  let missing : Response × NotesDb := (errorResponse 404 (ascii "no such note"), db)
  if req.method = httpGet then
    match db.find id with
    | none => missing
    | some n => (makeResponse 200 n.toJson, db)
  else if req.method = httpPut then
    match db.find id with
    | none => missing
    | some n =>
      match parse req.body with
      | .error what => (errorResponse 400 (ascii "invalid JSON: " ++ what), db)
      | .ok body => putNote db n body
  else if req.method = httpDelete then
    match db.erase id with
    | (false, db) => (errorResponse 404 (ascii "no such note"), db)
    | (true, db) => (makeResponse 200 (.object [(ascii "deleted", .number id)]), db)
  else (errorResponse 405 (ascii "method not allowed on /notes/<id>"), db)

def handle (parse : Parse) (req : Request) (db : NotesDb) : Response × NotesDb :=
  if req.path = ascii "/notes" then handleNotes parse req db
  else
    match parseNoteId req.path with
    | some id => handleNote parse req id db
    | none =>
      if req.path = ascii "/stats" ∧ req.method = httpGet then (makeResponse 200 (stats db), db)
      else (errorResponse 404 (ascii "no such route"), db)

/-- One request after another. -/
def step (parse : Parse) (db : NotesDb) (req : Request) : Option NotesDb := some (handle parse req db).2

variable {parse : Parse} {db s t : NotesDb} {req : Request} {reqs : List Request} {n m : Note} {id : Nat} {body : Json}

/-- The notes are listed by ids that were given out. -/
structure NotesDb.Good (db : NotesDb) : Prop where
  sorted : db.notes.Pairwise fun m n => m.id < n.id
  below : ∀ n ∈ db.notes, n.id < db.nextId

theorem find_mem (found : db.find id = some n) : n ∈ db.notes ∧ n.id = id :=
  ⟨List.mem_of_find?_eq_some found, by simpa using List.find?_some found⟩

theorem NotesDb.Good.unique (good : db.Good) (left : m ∈ db.notes) (right : n ∈ db.notes) (same : m.id = n.id) :
    m = n := by
  have ids : (db.notes.map Note.id).Nodup := List.pairwise_map.mpr (good.sorted.imp fun less => Nat.ne_of_lt less)
  exact List.inj_on_of_nodup_map ids left right same

theorem find_fresh (good : db.Good) (late : db.nextId ≤ id) : db.find id = none := by
  rw [NotesDb.find, List.find?_eq_none]
  intro n member
  have less := good.below n member
  simp only [decide_eq_true_eq]
  omega

/-- A new note is the last. -/
theorem create_spec (good : db.Good) (room : db.nextId + 1 < 2 ^ 64) (title text : Bytes) :
    db.create title text =
      (⟨db.nextId, title, text⟩, ⟨db.notes ++ [⟨db.nextId, title, text⟩], db.nextId + 1⟩) := by
  have absent : db.find db.nextId = none := find_fresh good (Nat.le_refl _)
  have last : db.notes.orderedInsert (·.id ≤ ·.id) ⟨db.nextId, title, text⟩ = db.notes ++ [⟨db.nextId, title, text⟩] := by
    have below := good.below
    generalize db.notes = notes at below
    induction notes with
    | nil => rfl
    | cons n notes ih =>
      have less := below n List.mem_cons_self
      rw [List.orderedInsert, if_neg (by dsimp only; omega), ih fun m member => below m (List.mem_cons_of_mem _ member),
        List.cons_append]
  have same : NotesDb.find { db with nextId := db.nextId + 1 } db.nextId = none := absent
  simp only [NotesDb.create, Nat.mod_eq_of_lt room, same, last]

theorem write_write (same : m.id = n.id) : (db.write m).write n = db.write n := by
  simp only [NotesDb.write, List.map_map]
  congr 1
  apply List.map_congr_left
  intro k _
  by_cases here : k.id = n.id
  · simp [here, same]
  · simp [here, same]

/-- All that a request can do to the notes. -/
inductive Effect (db : NotesDb) (req : Request) : NotesDb → Prop where
  | reads : Effect db req db
  | creates (n : Note) : n.id = db.nextId → Effect db req ⟨db.notes ++ [n], db.nextId + 1⟩
  | erases (id : Nat) : parseNoteId req.path = some id → req.method = httpDelete →
      Effect db req { db with notes := db.notes.filter (·.id ≠ id) }
  | writes (n : Note) : parseNoteId req.path = some n.id → req.method = httpPut → Effect db req (db.write n)

theorem putBody_effect (db : NotesDb) (n : Note) (body : Json) :
    (putBody db n body).2 = db ∨ ∃ m, m.id = n.id ∧ (putBody db n body).2 = db.write m := by
  unfold putBody
  split
  next text _ => exact .inr ⟨{ n with body := text }, rfl, rfl⟩
  · exact .inl rfl
  · exact .inl rfl

theorem putNote_effect (asks : parseNoteId req.path = some n.id) (put : req.method = httpPut) :
    Effect db req (putNote db n body).2 := by
  have written : ∀ {m : Note}, m.id = n.id → Effect db req (db.write m) := fun same =>
    .writes _ (same ▸ asks) put
  unfold putNote
  split
  next title _ =>
    rcases putBody_effect (db.write { n with title }) { n with title } body with same | ⟨m, own, same⟩
    · rw [same]
      exact written rfl
    · rw [same, write_write own.symm]
      exact written own
  · exact .reads
  · rcases putBody_effect db n body with same | ⟨m, own, same⟩
    · rw [same]
      exact .reads
    · rw [same]
      exact written own

theorem handle_effect (parse : Parse) (req : Request) (good : db.Good) (room : db.nextId + 1 < 2 ^ 64) :
    Effect db req (handle parse req db).2 := by
  unfold handle
  split
  · unfold handleNotes
    split
    · exact .reads
    · split
      · split
        · exact .reads
        · split
          next title text _ _ =>
            rw [create_spec good room]
            exact .creates _ rfl
          · exact .reads
      · exact .reads
  · split
    next id asks =>
      simp only [handleNote]
      split
      · split
        · exact .reads
        · exact .reads
      · split
        next put =>
          split
          · exact .reads
          next n found =>
            split
            · exact .reads
            · exact putNote_effect ((find_mem found).2 ▸ asks) put
        · split
          next delete =>
            have erased : Effect db req { db with notes := db.notes.filter (·.id ≠ id) } := .erases id asks delete
            split
            next gone =>
              obtain ⟨_, rfl⟩ := Prod.mk.inj gone
              exact erased
            next gone =>
              obtain ⟨_, rfl⟩ := Prod.mk.inj gone
              exact erased
          · exact .reads
    · split
      · exact .reads
      · exact .reads

theorem find_write (db : NotesDb) (n : Note) (id : Nat) :
    (db.write n).find id = (db.find id).map fun m => if m.id = n.id then n else m := by
  have same : ∀ m : Note, (if m.id = n.id then n else m).id = m.id := by
    intro m
    split
    next here => exact here.symm
    · rfl
  simp only [NotesDb.write, NotesDb.find, List.find?_map, Function.comp_def, same]

theorem find_filter (db : NotesDb) (id gone : Nat) :
    NotesDb.find { db with notes := db.notes.filter (·.id ≠ gone) } id = if id = gone then none else db.find id := by
  by_cases here : id = gone
  · rw [if_pos here, NotesDb.find, List.find?_eq_none]
    intro n member
    have other := (List.mem_filter.mp member).2
    simp only [decide_eq_true_eq] at other ⊢
    exact here ▸ other
  · rw [if_neg here]
    simp only [NotesDb.find, List.find?_filter]
    congr 1
    funext n
    by_cases own : n.id = id
    · simp [own, here]
    · simp [own]

theorem find_append (notes : List Note) (n : Note) (next id : Nat) :
    NotesDb.find ⟨notes ++ [n], next⟩ id =
      (notes.find? (·.id = id)).or (if n.id = id then some n else none) := by
  simp only [NotesDb.find, List.find?_append, List.find?_singleton, decide_eq_true_eq]

theorem Effect.good (effect : Effect db req t) (good : db.Good) : t.Good := by
  cases effect with
  | reads => exact good
  | creates n fresh =>
    refine ⟨?_, fun m member => ?_⟩
    · rw [List.pairwise_append]
      refine ⟨good.sorted, List.pairwise_singleton _ _, fun m old k new => ?_⟩
      cases List.mem_singleton.mp new
      exact fresh ▸ good.below m old
    · rcases List.mem_append.mp member with old | new
      · exact Nat.lt_succ_of_lt (good.below m old)
      · cases List.mem_singleton.mp new
        exact Nat.lt_succ_of_le (Nat.le_of_eq fresh)
  | erases id => exact ⟨good.sorted.filter _, fun m member => good.below m (List.mem_of_mem_filter member)⟩
  | writes n asks put =>
    have same : ∀ m : Note, (if m.id = n.id then n else m).id = m.id := by
      intro m
      split
      next here => exact here.symm
      · rfl
    refine ⟨?_, fun m member => ?_⟩
    · rw [NotesDb.write, List.pairwise_map]
      simp only [same]
      exact good.sorted
    · obtain ⟨k, old, rfl⟩ := List.mem_map.mp member
      rw [same]
      exact good.below k old

theorem Effect.next (effect : Effect db req t) : db.nextId ≤ t.nextId ∧ t.nextId ≤ db.nextId + 1 := by
  cases effect with
  | creates => exact ⟨Nat.le_succ _, Nat.le_refl _⟩
  | reads | erases | writes => exact ⟨Nat.le_refl _, Nat.le_succ _⟩

theorem Effect.gone (effect : Effect db req t) (absent : db.find id = none) (old : id < db.nextId) : t.find id = none := by
  cases effect with
  | reads => exact absent
  | creates n fresh =>
    rw [find_append, if_neg (by omega), Option.or_none]
    exact absent
  | erases gone => rw [find_filter, absent, ite_self]
  | writes n => rw [find_write, absent, Option.map_none]

/-- A note that is not written and not deleted stays. -/
theorem Effect.kept (effect : Effect db req t) (found : db.find id = some n)
    (other : parseNoteId req.path = some id → req.method ≠ httpPut ∧ req.method ≠ httpDelete) : t.find id = some n := by
  cases effect with
  | reads => exact found
  | creates m =>
    rw [find_append, show db.notes.find? (·.id = id) = some n from found]
    rfl
  | erases gone asks delete =>
    have differs : id ≠ gone := by
      rintro rfl
      exact (other asks).2 delete
    rw [find_filter, if_neg differs]
    exact found
  | writes m asks put =>
    have differs : n.id ≠ m.id := by
      intro same
      exact (other (asks.trans (congrArg some (same.symm.trans (find_mem found).2)))).1 put
    rw [find_write, found, Option.map_some, if_neg differs]

/-- The invariant rule for requests, fewer than there are ids. -/
theorem reached_keeps (P : NotesDb → Prop) (ok : Request → Prop)
    (keeps : ∀ {db req t}, P db → ok req → Effect db req t → P t)
    (path : Reaches (step parse) db reqs t) (good : db.Good) (room : db.nextId + reqs.length < 2 ^ 64)
    (holds : P db) (all : ∀ r ∈ reqs, ok r) : t.Good ∧ t.nextId ≤ db.nextId + reqs.length ∧ P t := by
  induction path with
  | refl => exact ⟨good, Nat.le_refl _, holds⟩
  | @next db req _ _ _ made _ ih =>
    cases made
    rw [List.length_cons] at room ⊢
    have effect := handle_effect parse req good (by omega)
    have next := effect.next.2
    obtain ⟨good', bound, holds'⟩ := ih (effect.good good) (by omega) (keeps holds (all _ List.mem_cons_self) effect)
      fun r member => all r (List.mem_cons_of_mem _ member)
    exact ⟨good', by omega, holds'⟩

theorem reached_good (path : Reaches (step parse) {} reqs s) (room : reqs.length + 1 < 2 ^ 64) :
    s.Good ∧ s.nextId ≤ reqs.length + 1 := by
  have start : NotesDb.Good {} := ⟨.nil, by rintro _ ⟨⟩⟩
  obtain ⟨good, bound, _⟩ := reached_keeps (fun _ => True) (fun _ => True) (by simp) path start
    (by dsimp only; omega) trivial (by simp)
  exact ⟨good, by dsimp only at bound; omega⟩

theorem handle_note (asks : parseNoteId req.path = some id) : handle parse req db = handleNote parse req id db := by
  have other : req.path ≠ ascii "/notes" := by
    intro same
    rw [same] at asks
    have none : parseNoteId (ascii "/notes") = none := by decide
    cases none.symm.trans asks
  rw [handle, if_neg other, asks]

theorem handleNote_missing (absent : db.find id = none) :
    (handleNote parse req id db).1.status = if req.method ∈ [httpGet, httpPut, httpDelete] then 404 else 405 := by
  simp only [handleNote, absent, NotesDb.erase, Option.isSome_none, List.mem_cons, List.not_mem_nil, or_false]
  by_cases get : req.method = httpGet
  · simp [get, errorResponse, makeResponse]
  · by_cases put : req.method = httpPut
    · simp [put, errorResponse, makeResponse]
    · by_cases delete : req.method = httpDelete
      · simp [delete, errorResponse, makeResponse, httpDelete, httpGet, httpPut]
      · simp [get, put, delete, errorResponse, makeResponse]

/-- After a note was deleted, no request ever finds a note with its id. -/
theorem deleted_never_returns {del : Request} {before between : List Request}
    (path : Reaches (step parse) {} before s) (asks : parseNoteId del.path = some id)
    (delete : del.method = httpDelete) (deleted : (handle parse del s).1.status = 200)
    (later : Reaches (step parse) (handle parse del s).2 between t)
    (room : before.length + between.length + 2 < 2 ^ 64) (again : parseNoteId req.path = some id) :
    (handle parse req t).1.status = if req.method ∈ [httpGet, httpPut, httpDelete] then 404 else 405 := by
  obtain ⟨good, bound⟩ := reached_good path (by omega)
  have effect := handle_effect parse del good (by omega)
  have next := effect.next
  rw [handle_note asks] at deleted
  cases found : s.find id with
  | none =>
    rw [handleNote_missing found] at deleted
    split at deleted <;> contradiction
  | some n =>
    have gone : (handle parse del s).2.find id = none := by
      rw [handle_note asks]
      simp only [handleNote, delete, NotesDb.erase, found, Option.isSome_some]
      exact (find_filter s id id).trans (if_pos rfl)
    obtain ⟨member, own⟩ := find_mem found
    have old := good.below n member
    have kept := reached_keeps (fun db => db.find id = none ∧ id < db.nextId) (fun _ => True)
      (fun holds _ effect => ⟨effect.gone holds.1 holds.2, Nat.lt_of_lt_of_le holds.2 effect.next.1⟩)
      later (effect.good good) (by omega) ⟨gone, by omega⟩ (fun _ _ => trivial)
    rw [handle_note again]
    exact handleNote_missing kept.2.2.1

/-- What is parsed of two texts. -/
def samples : Parse := fun text =>
  if text = ascii "\x7b\"title\":\"a\",\"body\":\"b\"\x7d" then
    .ok (.object [(ascii "title", .string (ascii "a")), (ascii "body", .string (ascii "b"))])
  else if text = ascii "\x7b\"title\":\"c\",\"body\":1\x7d" then
    .ok (.object [(ascii "title", .string (ascii "c")), (ascii "body", .number 1)])
  else .error (ascii "syntax error")

def samplePost : Request := ⟨httpPost, ascii "/notes", ascii "\x7b\"title\":\"a\",\"body\":\"b\"\x7d"⟩
def samplePut : Request := ⟨httpPut, ascii "/notes/1", ascii "\x7b\"title\":\"c\",\"body\":1\x7d"⟩

/-- Another note is made after the first was deleted. -/
theorem deleted_never_returns_another : ∃ s t, Reaches (step samples) {} [samplePost] s ∧
    Reaches (step samples) (handle samples ⟨httpDelete, ascii "/notes/1", []⟩ s).2 [samplePost] t ∧
    t.notes.length = 1 ∧ (handle samples ⟨httpGet, ascii "/notes/1", []⟩ t).1.status = 404 := by
  have path : Reaches (step samples) {} [samplePost] (handle samples samplePost {}).2 := .next rfl (.refl _)
  have later : Reaches (step samples)
      (handle samples ⟨httpDelete, ascii "/notes/1", []⟩ (handle samples samplePost {}).2).2 [samplePost] _ :=
    .next rfl (.refl _)
  have asks : parseNoteId (ascii "/notes/1") = some 1 := by decide
  exact ⟨_, _, path, later, by decide, deleted_never_returns path asks rfl (by decide) later (by decide) asks⟩

/-- The answer to the request is this note. -/
def Shows (parse : Parse) (db : NotesDb) (req : Request) (n : Note) : Prop :=
  (handle parse req db).1 = makeResponse 201 n.toJson ∨
    (parseNoteId req.path).isSome ∧ (req.method = httpGet ∨ req.method = httpPut) ∧
      (handle parse req db).1 = makeResponse 200 n.toJson

theorem response_inj {a b : Nat} (same : makeResponse a n.toJson = makeResponse b m.toJson) : a = b ∧ n = m := by
  cases n
  cases m
  simpa [makeResponse, Note.toJson] using same

theorem write_found (found : db.find n.id = some m) : (db.write n).find n.id = some n := by
  rw [find_write, found, Option.map_some, if_pos (find_mem found).2]

theorem putBody_shows (found : db.find n.id = some n) (put : putBody db n body = (makeResponse 200 m.toJson, t)) :
    t.find m.id = some m := by
  unfold putBody at put
  split at put
  next text _ =>
    obtain ⟨same, rfl⟩ := Prod.mk.inj put
    obtain ⟨_, rfl⟩ := response_inj same
    exact write_found (n := { n with body := text }) found
  · cases congrArg (·.1.status) put
  · obtain ⟨same, rfl⟩ := Prod.mk.inj put
    obtain ⟨_, rfl⟩ := response_inj same
    exact found

theorem putNote_shows (found : db.find n.id = some n) (put : putNote db n body = (makeResponse 200 m.toJson, t)) :
    t.find m.id = some m := by
  unfold putNote at put
  split at put
  next title _ => exact putBody_shows (write_found (n := { n with title }) found) put
  · cases congrArg (·.1.status) put
  · exact putBody_shows found put

theorem putNote_status (db : NotesDb) (n : Note) (body : Json) :
    (putNote db n body).1.status = 200 ∨ (putNote db n body).1.status = 400 := by
  have second : ∀ (db : NotesDb) (n : Note), (putBody db n body).1.status = 200 ∨ (putBody db n body).1.status = 400 := by
    intro db n
    unfold putBody
    split
    · exact .inl rfl
    · exact .inr rfl
    · exact .inl rfl
  unfold putNote
  split
  · exact second _ _
  · exact .inr rfl
  · exact second _ _

/-- Only a POST to the collection makes a note. -/
theorem created_found (good : db.Good) (room : db.nextId + 1 < 2 ^ 64)
    (handled : handle parse req db = (makeResponse 201 n.toJson, t)) : t.find n.id = some n := by
  unfold handle at handled
  split at handled
  · unfold handleNotes at handled
    split at handled
    · cases congrArg (·.1.status) handled
    · split at handled
      · split at handled
        · cases congrArg (·.1.status) handled
        · split at handled
          next title text _ _ =>
            rw [create_spec good room] at handled
            obtain ⟨same, rfl⟩ := Prod.mk.inj handled
            obtain ⟨_, rfl⟩ := response_inj same
            have absent : db.notes.find? (·.id = db.nextId) = none := find_fresh good (Nat.le_refl _)
            rw [find_append, absent, if_pos rfl]
            rfl
          · cases congrArg (·.1.status) handled
      · cases congrArg (·.1.status) handled
  · split at handled
    next id _ =>
      simp only [handleNote] at handled
      split at handled
      · split at handled <;> cases congrArg (·.1.status) handled
      · split at handled
        · split at handled
          · cases congrArg (·.1.status) handled
          next m _ =>
            split at handled
            · cases congrArg (·.1.status) handled
            next body _ =>
              have status := congrArg (·.1.status) handled
              rcases putNote_status db m body with other | other
              · cases other.symm.trans status
              · cases other.symm.trans status
        · split at handled
          · split at handled <;> cases congrArg (·.1.status) handled
          · cases congrArg (·.1.status) handled
    · split at handled <;> cases congrArg (·.1.status) handled

theorem shown_found (asks : parseNoteId req.path = some id) (method : req.method = httpGet ∨ req.method = httpPut)
    (handled : handle parse req db = (makeResponse 200 n.toJson, t)) : t.find n.id = some n := by
  rw [handle_note asks] at handled
  simp only [handleNote] at handled
  split at handled
  · split at handled
    · cases congrArg (·.1.status) handled
    next m found =>
      obtain ⟨same, rfl⟩ := Prod.mk.inj handled
      obtain ⟨_, rfl⟩ := response_inj same
      exact (find_mem found).2 ▸ found
  next get =>
    rw [if_pos (method.resolve_left get)] at handled
    split at handled
    · cases congrArg (·.1.status) handled
    next m found =>
      split at handled
      · cases congrArg (·.1.status) handled
      · exact putNote_shows ((find_mem found).2 ▸ found) handled

theorem shows_found (good : db.Good) (room : db.nextId + 1 < 2 ^ 64) (shows : Shows parse db req n) :
    (handle parse req db).2.find n.id = some n := by
  rcases shows with created | ⟨asks, method, shown⟩
  · exact created_found good room (Prod.ext created rfl)
  · obtain ⟨id, asks⟩ := Option.isSome_iff_exists.mp asks
    exact shown_found asks method (Prod.ext shown rfl)

/-- A GET answers with the note that was last answered, if nobody asked to write or delete
that note in between. -/
theorem reads_see_writes {get : Request} {before between : List Request} (path : Reaches (step parse) {} before s)
    (shows : Shows parse s req n) (later : Reaches (step parse) (handle parse req s).2 between t)
    (room : before.length + between.length + 2 < 2 ^ 64)
    (others : ∀ r ∈ between, parseNoteId r.path = some n.id → r.method ≠ httpPut ∧ r.method ≠ httpDelete)
    (asks : parseNoteId get.path = some n.id) (method : get.method = httpGet) :
    (handle parse get t).1 = makeResponse 200 n.toJson := by
  obtain ⟨good, bound⟩ := reached_good path (by omega)
  have effect := handle_effect parse req good (by omega)
  have next := effect.next
  have found := shows_found good (by omega) shows
  have kept := reached_keeps (fun db => db.find n.id = some n)
    (fun r => parseNoteId r.path = some n.id → r.method ≠ httpPut ∧ r.method ≠ httpDelete)
    (fun found other effect => effect.kept found other) later (effect.good good) (by omega) found others
  rw [handle_note asks]
  simp only [handleNote, method, kept.2.2, if_true]

theorem reads_see_writes_later : ∃ t, Reaches (step samples) (handle samples samplePost {}).2 [samplePost] t ∧
    (handle samples ⟨httpGet, ascii "/notes/1", []⟩ t).1 = makeResponse 200 (Note.toJson ⟨1, ascii "a", ascii "b"⟩) := by
  have later : Reaches (step samples) (handle samples samplePost {}).2 [samplePost] _ := .next rfl (.refl _)
  refine ⟨_, later, ?_⟩
  exact reads_see_writes (n := ⟨1, ascii "a", ascii "b"⟩) (.refl ({} : NotesDb)) (.inl rfl) later (by decide) (by decide) (by decide)
    rfl

/-- A PUT with a new title and with a body that is no string. -/
def HalfPut (parse : Parse) (req : Request) (db : NotesDb) : Prop :=
  ∃ id n body title text, parseNoteId req.path = some id ∧ req.method = httpPut ∧ db.find id = some n ∧
    parse req.body = .ok body ∧ body.find (ascii "title") = some (.string title) ∧ title ≠ n.title ∧
    body.find (ascii "body") = some text ∧ ∀ s, text ≠ .string s

theorem write_self (good : db.Good) (found : db.find n.id = some n) : db.write n = db := by
  have same : (db.notes.map fun m => if m.id = n.id then n else m) = db.notes := by
    refine (List.map_congr_left fun m member => ?_).trans (List.map_id _)
    split
    next here => exact good.unique (find_mem found).1 member here.symm
    · rfl
  rw [NotesDb.write, same]

theorem putBody_failed (failed : 400 ≤ (putBody db n body).1.status) :
    (putBody db n body).2 = db ∧ ∃ text, body.find (ascii "body") = some text ∧ ∀ s, text ≠ .string s := by
  unfold putBody at failed ⊢
  cases field : body.find (ascii "body") with
  | none =>
    rw [field] at failed
    exact absurd failed (by decide : ¬400 ≤ 200)
  | some text =>
    rw [field] at failed
    cases text with
    | string s => exact absurd failed (by decide : ¬400 ≤ 200)
    | null | bool | number | other | array | object => exact ⟨rfl, _, rfl, by simp⟩

theorem putNote_failed (good : db.Good) (found : db.find n.id = some n) (failed : 400 ≤ (putNote db n body).1.status) :
    (putNote db n body).2 = db ∨ ∃ title text, body.find (ascii "title") = some (.string title) ∧ title ≠ n.title ∧
      body.find (ascii "body") = some text ∧ ∀ s, text ≠ .string s := by
  cases field : body.find (ascii "title") with
  | none =>
    simp only [putNote, field] at failed ⊢
    exact .inl (putBody_failed failed).1
  | some value =>
    cases value with
    | string title =>
      simp only [putNote, field] at failed ⊢
      obtain ⟨same, text, second⟩ := putBody_failed failed
      by_cases old : title = n.title
      · subst old
        rw [same]
        exact .inl (write_self good found)
      · exact .inr ⟨title, text, rfl, old, second⟩
    | null | bool | number | other | array | object => exact .inl (by simp only [putNote, field])

theorem handle_failed (good : db.Good) (failed : 400 ≤ (handle parse req db).1.status) :
    (handle parse req db).2 = db ∨ HalfPut parse req db := by
  cases asks : parseNoteId req.path with
  | none =>
    left
    by_cases collection : req.path = ascii "/notes"
    · simp only [handle, if_pos collection, handleNotes] at failed ⊢
      by_cases get : req.method = httpGet
      · rw [if_pos get]
      rw [if_neg get] at failed ⊢
      by_cases post : req.method = httpPost
      · rw [if_pos post] at failed ⊢
        cases parsed : parse req.body with
        | error => rfl
        | ok body =>
          rw [parsed] at failed
          dsimp only at failed ⊢
          split
          next one two =>
            rw [one, two] at failed
            exact absurd failed (by decide : ¬400 ≤ 201)
          · rfl
      · rw [if_neg post]
    · simp only [handle, if_neg collection, asks]
      split <;> rfl
  | some id =>
    rw [handle_note asks] at failed ⊢
    simp only [handleNote] at failed ⊢
    by_cases get : req.method = httpGet
    · rw [if_pos get]
      split <;> exact .inl rfl
    rw [if_neg get] at failed ⊢
    by_cases put : req.method = httpPut
    · rw [if_pos put] at failed ⊢
      cases found : db.find id with
      | none => exact .inl rfl
      | some n =>
        rw [found] at failed
        dsimp only at failed ⊢
        cases parsed : parse req.body with
        | error => exact .inl rfl
        | ok body =>
          rw [parsed] at failed
          rcases putNote_failed good ((find_mem found).2 ▸ found) failed with same | ⟨title, text, half⟩
          · exact .inl same
          · exact .inr ⟨id, n, body, title, text, asks, put, found, parsed, half⟩
    rw [if_neg put] at failed ⊢
    by_cases delete : req.method = httpDelete
    · rw [if_pos delete] at failed ⊢
      cases found : db.find id with
      | none =>
        left
        have none_left : db.notes.filter (·.id ≠ id) = db.notes := by
          rw [List.filter_eq_self]
          intro n member
          have other := List.find?_eq_none.mp found n member
          simpa using other
        simp only [NotesDb.erase, found, Option.isSome_none, none_left]
      | some n =>
        simp only [NotesDb.erase, found, Option.isSome_some] at failed
        exact absurd failed (by decide : ¬400 ≤ 200)
    · rw [if_neg delete]
      exact .inl rfl

theorem halfPut_changes (half : HalfPut parse req db) : (handle parse req db).2 ≠ db := by
  obtain ⟨id, n, body, title, text, asks, put, found, parsed, first, new, second, wrong⟩ := half
  obtain ⟨_, rfl⟩ := find_mem found
  have written : (handle parse req db).2 = db.write { n with title } := by
    rw [handle_note asks]
    have get : req.method ≠ httpGet := by
      rw [put]
      decide
    simp only [handleNote, if_neg get, if_pos put, found, parsed, putNote, first, putBody, second]
  intro same
  have there := write_found (n := { n with title }) found
  rw [← written, same, found] at there
  exact new (congrArg Note.title (Option.some.inj there)).symm

/-- A request that is answered with an error leaves the notes as they were, except for a
PUT that has written the title. -/
theorem error_leaves_notes (path : Reaches (step parse) {} reqs s) (room : reqs.length + 1 < 2 ^ 64)
    (failed : 400 ≤ (handle parse req s).1.status) : (handle parse req s).2 = s ↔ ¬HalfPut parse req s := by
  constructor
  · exact fun same half => halfPut_changes half same
  · exact fun whole => (handle_failed (reached_good path room).1 failed).resolve_right whole

theorem error_leaves_notes_half : ∃ s, Reaches (step samples) {} [samplePost] s ∧
    (handle samples samplePut s).1.status = 400 ∧ (handle samples samplePut s).2 ≠ s := by
  have path : Reaches (step samples) {} [samplePost] _ := .next rfl (.refl _)
  refine ⟨_, path, by decide, fun same => ?_⟩
  exact (error_leaves_notes path (by decide) (by decide)).mp same
    ⟨1, ⟨1, ascii "a", ascii "b"⟩, _, ascii "c", .number 1, by decide, rfl, by decide, rfl, rfl, by decide, rfl, by simp⟩

end Cotamer.Notes
