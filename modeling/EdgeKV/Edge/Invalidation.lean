import EdgeKV.Edge.Cache

/-!
The invalidation that a write enqueues against the URIs under which clients ask for the key.
The server names the key as it is, the client escapes it, and the edge compares what it is sent.
-/
namespace EdgeKV.Edge

open Server (Routing Hop cachePath)
open Url (utf8 pathEscape Plain pathEscape_plain pathEscape_longer question_pathEscape)

/-- The URIs under which `CachedGet` asks for a key, without a query string or with one. -/
def Requests (key : String) (uri : Bytes) : Prop :=
  uri = cachePath ++ pathEscape (utf8 key) ∨
    ∃ query, uri = cachePath ++ pathEscape (utf8 key) ++ '?'.toUInt8 :: query

/-- There is no copy of the key in the cache. -/
def Cache.Purged (c : Cache) (key : String) : Prop := ∀ uri, Requests key uri → c.entries uri = none

variable {key : String} {path uri : Bytes}

theorem covers_iff : Cache.covers path uri = true ↔
    uri = path ∨ ∃ query, uri = path ++ '?'.toUInt8 :: query := by
  rw [Cache.covers, Bool.or_eq_true, decide_eq_true_iff, List.isPrefixOf_iff_prefix]
  refine or_congr_right ⟨?_, ?_⟩
  · rintro ⟨query, rfl⟩
    exact ⟨query, by simp⟩
  · rintro ⟨query, rfl⟩
    exact ⟨query, by simp⟩

/-- A key that needs no escaping is covered by its own path. -/
theorem covers_plain (plain : Plain (utf8 key)) (asked : Requests key uri) :
    Cache.covers (cachePath ++ utf8 key) uri = true := by
  rw [Requests, pathEscape_plain plain] at asked
  exact covers_iff.mpr asked

/-- An escaped key is longer than it was, and no question mark is left in it. -/
theorem covers_escaped (escaped : ¬ Plain (utf8 key)) (asked : Requests key uri) :
    Cache.covers (cachePath ++ utf8 key) uri = false := by
  have longer := pathEscape_longer escaped
  have unquestioned := question_pathEscape (utf8 key)
  have start : cachePath ++ pathEscape (utf8 key) <+: uri := by
    rcases asked with rfl | ⟨query, rfl⟩
    · exact List.prefix_rfl
    · exact List.prefix_append _ _
  rw [← Bool.not_eq_true]
  intro covered
  rcases covers_iff.mp covered with rfl | ⟨query, rfl⟩
  · have short := start.length_le
    simp only [List.length_append] at short
    omega
  · rw [List.append_assoc] at start
    have tail := (List.prefix_append_right_inj cachePath).mp start
    have inside : utf8 key ++ ['?'.toUInt8] <+: pathEscape (utf8 key) := by
      have asked : utf8 key ++ ['?'.toUInt8] <+: utf8 key ++ '?'.toUInt8 :: query :=
        ⟨query, by simp⟩
      refine List.prefix_of_prefix_length_le asked tail ?_
      rw [List.length_append, List.length_singleton]
      exact longer
    exact unquestioned (inside.subset (by simp))

theorem apply_single (c : Cache) (path uri : Bytes) :
    (c.apply [path]).entries uri = if Cache.covers path uri then none else c.entries uri := rfl

/-- The path that a successful write enqueues purges the key exactly if nothing in the key is
escaped, or if there was no copy of it. -/
theorem invalidation_reaches (cfg : Server.Config) (on : cfg.invalidations = true) (routing : Routing)
    (cmd : Command) (hop : Hop) (res : Result) (ok : res.status = .ok)
    (cacheable : cfg.namespaceCacheable cmd.key = true) (c : Cache) :
    ∃ path, (cfg.write routing cmd hop (.ok res)).2 = some path ∧
      ((c.apply [path]).Purged cmd.key ↔ Plain (utf8 cmd.key) ∨ c.Purged cmd.key) := by
  refine ⟨cachePath ++ utf8 cmd.key, ?_, ?_⟩
  · simp only [Server.Config.write, ok, on, cacheable]
    rfl
  · by_cases plain : Plain (utf8 cmd.key)
    · refine iff_of_true ?_ (Or.inl plain)
      intro uri asked
      rw [apply_single, covers_plain plain asked]
      rfl
    · rw [or_iff_right plain]
      refine forall_congr' fun uri => imp_congr_right fun asked => ?_
      rw [apply_single, covers_escaped plain asked]
      rfl

/-- A node that caches the namespace `config:`. -/
def configOnly : Server.Config where
  nodeId := "n1"
  peerHTTP _ := ""
  cacheableNamespaces := ["config:"]
  invalidations := true
  shardFor _ := 0

/-- A cache with one entry, for the URI. -/
def copyAt (uri : Bytes) : Cache :=
  Cache.insert {} uri
    { response := { status := 200, cacheControl := "public, max-age=30", body := .none }
      etag := "\"v1\""
      fetched := 0
      expires := 30 * second }

theorem invalidation_reaches_model :
    ∃ path, (configOnly.write {} { op := .put, key := "config:model" } (.failed "") (.ok {})).2 =
        some path ∧
      ((copyAt (utf8 "/v1/cache/config:model?v=3")).apply [path]).Purged "config:model" := by
  have plain : Plain (utf8 "config:model") := by
    unfold Plain
    decide +kernel
  obtain ⟨path, enqueued, purges⟩ := invalidation_reaches configOnly rfl {}
    { op := .put, key := "config:model" } (.failed "") {} rfl (by decide +kernel)
    (copyAt (utf8 "/v1/cache/config:model?v=3"))
  exact ⟨path, enqueued, purges.mpr (Or.inl plain)⟩

/-- The copy of a key with a slash survives the invalidation of the key. -/
theorem escaped_survives :
    Requests "config:a/b" (utf8 "/v1/cache/config:a%2Fb") ∧
      configOnly.namespaceCacheable "config:a/b" = true ∧
      ∃ path, (configOnly.write {} { op := .put, key := "config:a/b" } (.failed "") (.ok {})).2 =
          some path ∧
        ((copyAt (utf8 "/v1/cache/config:a%2Fb")).apply [path]).entries
          (utf8 "/v1/cache/config:a%2Fb") = some 0 := by
  refine ⟨Or.inl (by decide +kernel), by decide +kernel, utf8 "/v1/cache/config:a/b", ?_, ?_⟩
  · decide +kernel
  · have copy (uri : Bytes) : (copyAt uri).entries uri = some 0 := Function.update_self ..
    rw [apply_single, copy]
    decide +kernel

end EdgeKV.Edge
