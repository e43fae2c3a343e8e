import Mathlib.Data.List.Infix
import EdgeKV.Server.Gateway

/-!
The edge cache: a map from request URIs to entries that requests share by reference. A
revalidation renews an entry in place, also for requests that looked it up before, and also
after it was evicted. Times and durations are in nanoseconds.
-/
namespace EdgeKV.Edge

def second : Int := 1000000000

/-- `maxAge`: the first directive with a number; the product is one of 64 bits. -/
def maxAge (cacheControl : String) : Int :=
  let seconds := (cacheControl.toList.splitOn ',').findSome? fun part =>
    ("max-age=".toList.isPrefixOf? (Text.trimSpace part)).bind Text.atoi
  (seconds.map fun n => (n * second).bmod (2 ^ 64)).getD 0

structure Entry where
  response : Server.Response
  etag : String
  fetched : Int
  expires : Int
  deriving DecidableEq, Repr

/-- An entry in memory, with the URI it was made for. -/
structure Cell where
  uri : Bytes
  entry : Entry
  deriving DecidableEq, Repr

def Cell.renew (cell : Cell) (now ttl : Int) : Cell :=
  { cell with entry := { cell.entry with fetched := now, expires := now + ttl } }

inductive XCache
  | hit
  | miss
  | refreshHit
  | stale
  deriving DecidableEq, Repr

/-- The cache proper. An entry is referred to by its place in memory. -/
structure Cache where
  entries : Bytes → Option Nat := fun _ => none
  heap : List Cell := []

namespace Cache

variable (c : Cache)

/-- The entry that a request has looked up. -/
def deref (ent : Option Nat) : Option Cell := ent.bind (c.heap[·]?)

/-- The header that `fetch` sends: that of the client, unless there is an entry to revalidate. -/
def conditional (ent : Option Nat) (own : String) : String :=
  match c.deref ent with
  | some cell => if cell.entry.etag ≠ "" then cell.entry.etag else own
  | none => own

/-- Whether the entry is served without asking the origin. -/
def fresh (ent : Option Nat) (now : Int) : Bool := (c.deref ent).any (now < ·.entry.expires)

def renew (ent : Option Nat) (now ttl : Int) : Cache :=
  match ent with
  | none => c
  | some p => { c with heap := c.heap.modify p (·.renew now ttl) }

def insert (uri : Bytes) (entry : Entry) : Cache where
  entries := Function.update c.entries uri (some c.heap.length)
  heap := c.heap ++ [⟨uri, entry⟩]

/-- `handle` after `fetch`: what it does to the cache and how it answers. -/
def receive (uri : Bytes) (now : Int) (ent : Option Nat) :
    Except String Server.Response → Cache × Option XCache × Server.Response
  | .error err =>
      match c.deref ent with
      | some cell => (c, some .stale, cell.entry.response)
      | none => (c, none, { status := 502, body := .text ("origin unreachable: " ++ err) })
  | .ok resp =>
      match c.deref ent, decide (resp.status = 304) with
      | some cell, true =>
          let renewed := maxAge resp.cacheControl
          let ttl := if renewed = 0 then maxAge cell.entry.response.cacheControl else renewed
          (c.renew ent now ttl, some .refreshHit, cell.entry.response)
      | _, _ =>
          let ttl := maxAge resp.cacheControl
          if resp.status = 200 ∧ 0 < ttl ∧ ¬ "no-store".toList <:+: resp.cacheControl.toList then
            (c.insert uri { response := resp, etag := resp.etag, fetched := now, expires := now + ttl },
              some .miss, resp)
          else (c, some .miss, resp)

/-- Whether the path of an invalidation covers the URI: with any query string, or none. -/
def covers (path uri : Bytes) : Bool := uri = path || (path ++ ['?'.toUInt8]).isPrefixOf uri

/-- `apply` in `handleInvalidate`. -/
def apply (paths : List Bytes) : Cache :=
  { c with
    entries := paths.foldl (fun entries path uri => if covers path uri then none else entries uri)
      c.entries }

def flush : Cache := { c with entries := fun _ => none }

end Cache

/-- The header of a response that is cached for the TTL. -/
theorem maxAge_public {n : Nat} (small : n < 2 ^ 32) :
    maxAge ("public, max-age=" ++ toString n) = n * second := by
  have text : ("public, max-age=" ++ toString n).toList =
      "public".toList ++ ',' :: (' ' :: "max-age=".toList ++ Nat.toDigits 10 n) := by
    rw [String.toList_append, Text.toList_toString]
    rfl
  have comma : ',' ∉ ' ' :: "max-age=".toList ++ Nat.toDigits 10 n := by
    intro there
    rcases List.mem_append.mp there with word | digit
    · revert word
      decide
    · exact absurd (Text.isDigit_toDigits digit) (by decide)
  have directives : ("public, max-age=" ++ toString n).toList.splitOn ',' =
      ["public".toList, ' ' :: "max-age=".toList ++ Nat.toDigits 10 n] := by
    rw [text, List.splitOn_append_cons_self_of_not_mem (by decide), List.splitOn_eq_singleton comma]
  have trimmed : Text.trimSpace (' ' :: "max-age=".toList ++ Nat.toDigits 10 n) =
      "max-age=".toList ++ Nat.toDigits 10 n :=
    Text.trimSpace_numbered (c := 'm') (by decide) "ax-age=".toList n
  have value : ("max-age=".toList.isPrefixOf? ("max-age=".toList ++ Nat.toDigits 10 n)).bind Text.atoi =
      some (n : Int) := by
    rw [List.isPrefixOf?_eq_some_iff_append_eq.mpr rfl]
    exact Text.atoi_toDigits (by omega)
  have found : ["public".toList, ' ' :: "max-age=".toList ++ Nat.toDigits 10 n].findSome? (fun part =>
      ("max-age=".toList.isPrefixOf? (Text.trimSpace part)).bind Text.atoi) = some (n : Int) := by
    have first : ("max-age=".toList.isPrefixOf? (Text.trimSpace "public".toList)).bind Text.atoi =
        none := by decide
    rw [List.findSome?_cons, first, List.findSome?_cons, trimmed, value]
  have low : -((2 ^ 64 : Nat) / 2 : Int) ≤ n * second := by
    rw [second]
    omega
  have high : n * second < ((2 ^ 64 : Nat) + 1 : Int) / 2 := by
    rw [second]
    omega
  rw [maxAge, directives, found, Option.map_some, Option.getD_some, Int.bmod_eq_of_le low high]

end EdgeKV.Edge
