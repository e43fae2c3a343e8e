import EdgeKV.Edge.Staleness
import EdgeKV.Store.Versions

/-!
URIs that name a version. Whatever is served under one carries that version, and as long as the
64-bit versions of the key do not wrap around, one value.
-/
namespace EdgeKV.Edge

open Server (Fetched)

variable {env : Setting} {run : List System} {s s' : System}

/-- The number that the URI names as the version. -/
def Setting.version (env : Setting) (uri : Bytes) : Option UInt64 :=
  Text.parseUint (env.route uri).v.toList

/-- A step changes the records by a call of `Apply`, or not at all. -/
theorem step_origin (next : Step env s s') :
    (s'.origin = s.origin ∧ s'.calls = s.calls) ∨
      ∃ index cmd out res, (0 < index ∧ index < 2 ^ 64) ∧ (∀ x ∈ s.calls, x.index < index) ∧
        s.origin.apply env.codecs index (env.codecs.command.marshal cmd) = some (s'.origin, out) ∧
        env.codecs.result.unmarshal out = some res ∧
        s'.calls = s.calls ++ [⟨index, cmd, s.origin, s'.origin, res⟩] := by
  cases next with
  | write _ _ positive bounded rising applied result =>
      exact Or.inr ⟨_, _, _, _, ⟨positive, bounded⟩, rising, applied, result, rfl⟩
  | invalidate paths =>
      unfold System.handleInvalidate
      split
      · exact Or.inl ⟨rfl, rfl⟩
      · split <;> exact Or.inl ⟨rfl, rfl⟩
  | _ => exact Or.inl ⟨rfl, rfl⟩

/-- The records of a run are those of a run of the store. -/
theorem run_origin (h : Run env run s) :
    ∃ states, Store.Run env.codecs env.window s.calls states s.origin ∧
      ∀ t ∈ run, t.origin ∈ states := by
  induction h with
  | initial =>
      refine ⟨_, .new, fun t there => ?_⟩
      rw [List.mem_singleton.mp there]
      exact List.mem_singleton_self _
  | step before next ih =>
      obtain ⟨states, origin, passed⟩ := ih
      rcases step_origin next with
        ⟨same, calls⟩ | ⟨index, cmd, out, res, -, rising, applied, result, calls⟩
      · rw [same, calls]
        refine ⟨states, origin, fun t there => ?_⟩
        rcases List.mem_cons.mp there with rfl | old
        · rw [same]
          exact origin.newest
        · exact passed t old
      · rw [calls]
        refine ⟨_, .apply origin rising (env.codecs.command.round cmd) applied result, ?_⟩
        intro t there
        rcases List.mem_cons.mp there with rfl | old
        · exact List.mem_cons_self
        · exact List.mem_cons_of_mem _ (passed t old)

/-- The indexes of the calls are distinct and start at 1, so that there are fewer calls than
any bound on the indexes. -/
theorem run_indexes (h : Run env run s) :
    (∀ x ∈ s.calls, x.index < 2 ^ 64) ∧
      ∀ bound, 0 < bound → (∀ x ∈ s.calls, x.index < bound) → s.calls.length < bound := by
  induction h with
  | initial => exact ⟨fun x no => (nomatch no), fun bound positive _ => positive⟩
  | step before next ih =>
      obtain ⟨words, few⟩ := ih
      rcases step_origin next with ⟨-, calls⟩ | ⟨index, cmd, out, res, word, rising, -, -, calls⟩
      · rw [calls]
        exact ⟨words, few⟩
      · rw [calls]
        constructor
        · intro x there
          rcases List.mem_append.mp there with old | new
          · exact words x old
          · rw [List.mem_singleton.mp new]
            exact word.2
        · intro bound _ below
          have fewer := few index word.1 rising
          have last : index < bound := below _ (List.mem_append_right _ (List.mem_singleton_self _))
          rw [List.length_append, List.length_singleton]
          omega

/-- The versions of a run do not wrap around. -/
theorem run_written (h : Run env run s) (key : String) : Store.written s.calls key < 2 ^ 64 := by
  obtain ⟨words, few⟩ := run_indexes h
  exact Nat.lt_of_le_of_lt List.countP_le_length (few _ (by decide) words)

/-- A response on a URI with a version was made from the record of that version. -/
theorem versioned_entry (h : Run env run s) {x : Served} (served : x ∈ s.served)
    (ok : x.response.status = 200) {n : UInt64} (named : env.version x.uri = some n) :
    ∃ t ∈ run, ∃ e, t.origin.get (env.route x.uri).key = .ok e ∧ e.version = n ∧
      x.response.body = .entry (Server.toReadResponse (env.route x.uri).key e) := by
  obtain ⟨⟨t, there, ifNoneMatch, routing, e, fetched⟩, -⟩ := (run_inv h).served x served ok
  refine ⟨t, there, e, fetched.current, ?_, fetched.body ok⟩
  have header := fetched.cacheControl
  rw [Server.Config.cacheControl] at header
  split at header
  next absent =>
    have none : env.version x.uri = none := by
      rw [Setting.version, show (env.route x.uri).v = "" from absent]
      rfl
    rw [none] at named
    cases named
  · split at header
    next same => exact Option.some.inj (same.symm.trans named)
    · cases header

/-- A URI with a version is never stale: what is served under it carries the version that it
names, and one value. -/
theorem versioned_never_stale (env : Setting) (run : List System) (s : System) (h : Run env run s)
    (n : UInt64) (x : Served) (served : x ∈ s.served) (ok : x.response.status = 200)
    (named : env.version x.uri = some n) :
    ∃ body, x.response.body = .entry body ∧ body.version = n ∧
      ∀ y ∈ s.served, y.response.status = 200 → env.version y.uri = some n →
        (env.route y.uri).key = (env.route x.uri).key →
        ∃ body', y.response.body = .entry body' ∧ body'.value = body.value := by
  obtain ⟨t, there, e, read, version, content⟩ := versioned_entry h served ok named
  refine ⟨_, content, version, ?_⟩
  intro y served' ok' named' same
  obtain ⟨t', there', e', read', version', content'⟩ := versioned_entry h served' ok' named'
  refine ⟨_, content', ?_⟩
  rw [same] at read'
  obtain ⟨states, origin, passed⟩ := run_origin h
  have versions := Store.run_versions origin (run_written h)
  have equal : e' = e := Store.names_get versions (passed t' there') (passed t there) read' read
    (version'.trans version.symm)
  rw [equal]
  rfl

/-- The first version of a key. It is read through the edge, which keeps a copy, and a day later
the copy is served. -/
theorem versioned_never_stale_first :
    ∃ run s x, Run (oneKey "1") run s ∧ x ∈ s.served ∧ x.source = .edge (some .hit) ∧
      x.arrived = 86400 * second ∧ s.served.map (·.source) = [.edge (some .miss), .edge (some .hit)] ∧
      (oneKey "1").version x.uri = some 1 ∧
      ∃ body, x.response.body = .entry body ∧ body.version = 1 ∧
        ∀ y ∈ s.served, y.response.status = 200 → (oneKey "1").version y.uri = some 1 →
          ((oneKey "1").route y.uri).key = ((oneKey "1").route x.uri).key →
          ∃ body', y.response.body = .entry body' ∧ body'.value = body.value := by
  have one : (oneKey "1").version [] = some 1 := by decide +kernel
  have control : Server.Config.cacheControl "1" ⟨Url.utf8 "v12", 1, true, 30, 0⟩ =
      some "public, max-age=31536000, immutable" := by
    rw [Server.Config.cacheControl, if_neg (by decide)]
    exact if_pos one
  have lifetime : maxAge "public, max-age=31536000, immutable" = 31536000 * second := by
    decide +kernel
  obtain ⟨run, s, hit, served, sources⟩ := model_hit control
    (show (0 : Int) ≤ 86400 * second by decide) (lifetime ▸ by decide) (by decide +kernel)
  exact ⟨run, s, _, hit, served, rfl, rfl, sources, one,
    versioned_never_stale (oneKey "1") run s hit 1 _ served rfl one⟩

end EdgeKV.Edge
