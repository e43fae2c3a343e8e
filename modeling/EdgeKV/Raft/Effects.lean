import EdgeKV.Raft.Group

/-!
The actions of a process as a relation: one constructor for each way an action can
go, with its guards. Proofs about runs split an action here, once, and then work
with the locked region it runs.
-/
namespace EdgeKV

variable {ID σ : Type} [DecidableEq ID]

inductive Effect (cfg : Config ID) (self : ID) (M : StateMachine σ) (T : Transport)
    (p : Process ID σ) : Action ID → Outcome ID σ → Prop
  | checkQuorum {now : Nat} {expired : Bool} (running : p.raft.stopped = false)
      (leads : p.raft.state = .leader) :
      Effect cfg self M T p (.election (.tick now expired))
        (p.lock (p.raft.checkQuorumLocked cfg self now) [])
  | electionTimeout {now : Nat} (running : p.raft.stopped = false)
      (idle : p.raft.state ≠ .leader) :
      Effect cfg self M T p (.election (.tick now true)) (p.lock (p.raft.electionTimeout, []) [])
  | campaign {skipPreVote : Bool} (starting : p.raft.campaigning = some (.starting skipPreVote)) :
      Effect cfg self M T p (.election .campaign)
        (p.solicit (cfg.others self) (p.raft.beginCampaign self skipPreVote))
  | wonPreVote {now : Nat} {req : RequestVoteRequest ID} {granted : List ID}
      (round : p.raft.campaigning = some (.collecting req granted))
      (won : cfg.quorum ≤ 1 + granted.length) (trial : req.preVote = true) :
      Effect cfg self M T p (.election (.countVotes now))
        (p.solicit (cfg.others self) (p.raft.afterPreVote self req))
  | wonElection {now : Nat} {req : RequestVoteRequest ID} {granted : List ID}
      (round : p.raft.campaigning = some (.collecting req granted))
      (won : cfg.quorum ≤ 1 + granted.length) (real : req.preVote = false)
      (later : p.clock < now) :
      Effect cfg self M T p (.election (.countVotes now))
        (Process.tryLock { p with clock := now } (p.raft.afterElection cfg self req now))
  | abandonCampaign {req : RequestVoteRequest ID} {granted : List ID}
      (round : p.raft.campaigning = some (.collecting req granted)) :
      Effect cfg self M T p (.election .abandonCampaign) (p.lock (p.raft.endCampaign, []) [])
  | requestVote {req : RequestVoteRequest ID} {recent : Bool} :
      Effect cfg self M T p (.election (.requestVote req recent))
        (p.lock ((p.raft.handleRequestVote req recent).1, (p.raft.handleRequestVote req recent).2.1)
          [.voteReply self req.candidateId req (p.raft.handleRequestVote req recent).2.2])
  | voteReply {peer : ID} {req : RequestVoteRequest ID} {resp : RequestVoteResponse} :
      Effect cfg self M T p (.election (.voteReply peer req resp))
        (p.lock (p.raft.handleVoteReply peer req resp) [])
  | timeoutNow {req : TimeoutNowRequest ID} :
      Effect cfg self M T p (.election (.timeoutNow req))
        (p.lock (p.raft.handleTimeoutNow req, []) [])
  | replicatePanic {peer : ID} (other : peer ∈ cfg.others self)
      (failed : p.raft.replicateOnce cfg self peer = none) :
      Effect cfg self M T p (.replication (.replicate peer)) Process.panic
  | replicate {peer : ID} {call : Call ID} (other : peer ∈ cfg.others self)
      (built : p.raft.replicateOnce cfg self peer = some (some call)) :
      Effect cfg self M T p (.replication (.replicate peer))
        (Process.quiet { p with calls := call :: p.calls })
  | readSnapshot {peer : ID} {term : Nat} (waiting : .needSnapshot peer term ∈ p.calls) :
      Effect cfg self M T p (.replication (.readSnapshot peer term))
        (Process.quiet
          { p with
            calls := (Raft.snapshotCall self peer term p.storage).toList ++
              p.calls.erase (.needSnapshot peer term) })
  | send {call : Call ID} {now : Nat} (built : call ∈ p.calls) (later : p.clock < now) :
      Effect cfg self M T p (.replication (.send call now))
        { next := some
            ({ p with calls := p.calls.erase call, clock := now },
              if T.sendsCancelled ∨ p.raft.leading call.term then call.messages now else []) }
  | appendEntries {sentAt : Nat} {req : AppendEntriesRequest ID} :
      Effect cfg self M T p (.replication (.appendEntries sentAt req))
        { ops := (p.raft.handleAppendEntries req).1
          next := (p.raft.handleAppendEntries req).2.map fun x =>
            ({ p with raft := x.1 }, [.appendReply self req.leaderId sentAt req x.2]) }
  | appendReply {peer : ID} {sentAt : Nat} {req : AppendEntriesRequest ID}
      {resp : AppendEntriesResponse} :
      Effect cfg self M T p (.replication (.appendReply peer sentAt req resp))
        (p.lock (p.raft.handleAppendReply cfg self peer sentAt req resp) [])
  | installSnapshot {sentAt : Nat} {req : InstallSnapshotRequest ID} :
      Effect cfg self M T p (.replication (.installSnapshot sentAt req))
        (p.lock ((p.raft.handleInstallSnapshot req).1, (p.raft.handleInstallSnapshot req).2.1)
          [.installReply self req.leaderId sentAt req (p.raft.handleInstallSnapshot req).2.2])
  | installReply {peer : ID} {sentAt : Nat} {req : InstallSnapshotRequest ID}
      {resp : InstallSnapshotResponse} :
      Effect cfg self M T p (.replication (.installReply peer sentAt req resp))
        (p.lock (p.raft.handleInstallReply cfg self peer sentAt req resp) [])
  | propose {id : Nat} {data : Bytes} (running : p.raft.stopped = false) :
      Effect cfg self M T p (.client (.propose id data))
        (Process.quiet { p with proposeCh := p.proposeCh ++ [{ id, data }] })
  | appendProposals {count : Nat} (nonempty : count ≠ 0) (there : count ≤ p.proposeCh.length)
      (batch : count ≤ max 1 cfg.maxProposalBatch) :
      Effect cfg self M T p (.client (.appendProposals count))
        (Process.tryLock { p with proposeCh := p.proposeCh.drop count }
          (p.raft.appendProposals cfg self (p.proposeCh.take count)))
  | readIndex {id : Nat} (running : p.raft.stopped = false) :
      Effect cfg self M T p (.client (.readIndex id))
        (Process.quiet { p with readCh := p.readCh ++ [id] })
  | refuseRead {count now : Nat} {err : RaftError ID} (waiting : p.reader = .waiting)
      (later : p.clock < now) (refused : p.raft.startRead (p.readCh.take count) now = .error err) :
      Effect cfg self M T p (.client (.startRead count now))
        (Process.quiet
          (Process.answerReads { p with readCh := p.readCh.drop count, clock := now }
            (p.readCh.take count) (.error err)))
  | startRead {count now : Nat} {reader : Reader} (waiting : p.reader = .waiting)
      (later : p.clock < now) (started : p.raft.startRead (p.readCh.take count) now = .ok reader) :
      Effect cfg self M T p (.client (.startRead count now))
        (Process.quiet { p with readCh := p.readCh.drop count, clock := now, reader })
  | checkRead {batch : List Nat} {term readIndex start : Nat}
      {result : Except (RaftError ID) Nat}
      (confirming : p.reader = .confirming batch term readIndex start)
      (decided : p.raft.checkRead cfg self term readIndex start = some result) :
      Effect cfg self M T p (.client .checkRead) (Process.quiet (p.answerReads batch result))
  | abandonRead {err : RaftError ID} {batch : List Nat} {term readIndex start : Nat}
      (confirming : p.reader = .confirming batch term readIndex start) :
      Effect cfg self M T p (.client (.abandonRead err))
        (Process.quiet (p.answerReads batch (.error err)))
  | startTransfer {target : ID} {now : Nat} {raft : Raft ID} {t : Transfer ID}
      (later : p.clock < now)
      (started : p.raft.startTransfer cfg self target now = some (raft, t)) :
      Effect cfg self M T p (.client (.startTransfer target now))
        (Process.quiet { p with raft, transfers := t :: p.transfers, clock := now })
  | targetReady {t : Transfer ID} (active : t ∈ p.transfers)
      (caughtUp : p.raft.caughtUp t = true) :
      Effect cfg self M T p (.client (.targetReady t))
        (Process.quiet { p with transfers := { t with ready := true } :: p.transfers.erase t })
  | sendTimeoutNow {t : Transfer ID} (active : t ∈ p.transfers) (unsent : t.sent = false)
      (ready : t.ready = true) :
      Effect cfg self M T p (.client (.sendTimeoutNow t))
        { next := some
            ({ p with transfers := { t with sent := true } :: p.transfers.erase t },
              [.timeoutNow t.target { term := t.term, leaderId := self }]) }
  | endTransfer {t : Transfer ID} (active : t ∈ p.transfers) :
      Effect cfg self M T p (.client (.endTransfer t))
        (Process.lock { p with transfers := p.transfers.erase t } (p.raft.endTransfer t, []) [])
  | stop : Effect cfg self M T p (.client .stop) (p.lock (p.raft.stop, []) [])
  | takeSnapshot {snap : InstallSnapshotRequest ID} (waiting : p.applier = .waiting)
      (running : p.raft.stopped = false) (pending : p.raft.pendingSnapshot = some snap) :
      Effect cfg self M T p (.applier .takeWork)
        (Process.quiet
          { p with raft := { p.raft with pendingSnapshot := none }, applier := .restoring snap })
  | takePanic (waiting : p.applier = .waiting) (running : p.raft.stopped = false)
      (pending : p.raft.pendingSnapshot = none) (behind : p.raft.lastApplied < p.raft.commitIndex)
      (failed : p.raft.rlog.slice (p.raft.lastApplied + 1) p.raft.commitIndex = none) :
      Effect cfg self M T p (.applier .takeWork) Process.panic
  | takeEntries {entries : List Entry} (waiting : p.applier = .waiting)
      (running : p.raft.stopped = false) (pending : p.raft.pendingSnapshot = none)
      (behind : p.raft.lastApplied < p.raft.commitIndex)
      (cut : p.raft.rlog.slice (p.raft.lastApplied + 1) p.raft.commitIndex = some entries) :
      Effect cfg self M T p (.applier .takeWork)
        (Process.quiet { p with applier := .applying entries [] })
  | restorePanic {snap : InstallSnapshotRequest ID} (stage : p.applier = .restoring snap)
      (failed : M.restore snap.data = none) :
      Effect cfg self M T p (.applier .restore) Process.panic
  | restore {snap : InstallSnapshotRequest ID} {machine : σ} (stage : p.applier = .restoring snap)
      (restored : M.restore snap.data = some machine) :
      Effect cfg self M T p (.applier .restore)
        (Process.quiet { p with machine, applier := .restored snap })
  | finishRestore {snap : InstallSnapshotRequest ID} (stage : p.applier = .restored snap) :
      Effect cfg self M T p (.applier .finishRestore)
        (Process.quiet
          { p with
            raft := { p.raft with lastApplied := max p.raft.lastApplied snap.lastIncludedIndex }
            applier := .waiting })
  | skip {e : Entry} {entries : List Entry} {results : List (Entry × Bytes)}
      (stage : p.applier = .applying (e :: entries) results) (noop : e.type = .noop) :
      Effect cfg self M T p (.applier .apply)
        (Process.quiet { p with applier := .applying entries (results ++ [(e, [])]) })
  | applyPanic {e : Entry} {entries : List Entry} {results : List (Entry × Bytes)}
      (stage : p.applier = .applying (e :: entries) results) (normal : e.type = .normal)
      (failed : M.apply p.machine e.index e.data = none) :
      Effect cfg self M T p (.applier .apply) Process.panic
  | apply {e : Entry} {entries : List Entry} {results : List (Entry × Bytes)} {machine : σ}
      {result : Bytes} (stage : p.applier = .applying (e :: entries) results)
      (normal : e.type = .normal)
      (applied : M.apply p.machine e.index e.data = some (machine, result)) :
      Effect cfg self M T p (.applier .apply)
        (Process.quiet { p with machine, applier := .applying entries (results ++ [(e, result)]) })
  | finishPanic (stage : p.applier = .applying [] []) :
      Effect cfg self M T p (.applier .finishBatch) Process.panic
  | finishBatch {results : List (Entry × Bytes)} {last : Entry × Bytes}
      (stage : p.applier = .applying [] results) (final : results.getLast? = some last) :
      Effect cfg self M T p (.applier .finishBatch)
        (Process.quiet
          { p with
            raft := p.raft.finishBatch results last.1.index
            applier :=
              if (p.raft.finishBatch results last.1.index).needSnapshot cfg then
                .snapshotting last.1.index
              else .waiting })
  | snapshotFailed {index : Nat} (stage : p.applier = .snapshotting index) :
      Effect cfg self M T p (.applier (.snapshot none)) (Process.quiet { p with applier := .waiting })
  | snapshot {index : Nat} {data : Bytes} (stage : p.applier = .snapshotting index) :
      Effect cfg self M T p (.applier (.snapshot (some data)))
        (Process.quiet { p with applier := .captured index data })
  | snapshotOvertaken {index : Nat} {data : Bytes} (stage : p.applier = .captured index data)
      (gone : p.raft.rlog.term index = none) :
      Effect cfg self M T p (.applier .snapshotTerm) (Process.quiet { p with applier := .waiting })
  | snapshotTerm {index term : Nat} {data : Bytes} (stage : p.applier = .captured index data)
      (held : p.raft.rlog.term index = some term) :
      Effect cfg self M T p (.applier .snapshotTerm)
        (Process.quiet { p with applier := .saving index term data })
  | saveFailed {index term : Nat} {data : Bytes} {durable : Bool}
      (stage : p.applier = .saving index term data) :
      Effect cfg self M T p (.applier (.saveSnapshot durable false))
        { ops := if durable then [.snapshot ⟨index, term⟩ data false] else []
          next := some ({ p with applier := .waiting }, []) }
  | saveSnapshot {index term : Nat} {data : Bytes} (stage : p.applier = .saving index term data) :
      Effect cfg self M T p (.applier (.saveSnapshot true true))
        { ops := [.snapshot ⟨index, term⟩ data false]
          next := some ({ p with applier := .compacting index term }, []) }
  | compact {index term : Nat} (stage : p.applier = .compacting index term) :
      Effect cfg self M T p (.applier .compact)
        (Process.quiet
          { p with
            raft := { p.raft with rlog := p.raft.rlog.compactTo index term }
            applier := .waiting })

section Exec

variable {cfg : Config ID} {self : ID} {M : StateMachine σ} {T : Transport}
  {p : Process ID σ} {out : Outcome ID σ}

private theorem execElection_effect {a : ElectionAction ID}
    (h : p.execElection cfg self a = some out) : Effect cfg self M T p (.election a) out := by
  cases a with
  | tick now expired =>
      simp only [Process.execElection] at h
      split at h
      · cases h
      next running =>
        rw [Bool.not_eq_true] at running
        split at h
        next leads => cases h; exact .checkQuorum running leads
        next idle =>
          cases expired with
          | false => cases h
          | true => cases h; exact .electionTimeout running idle
  | campaign =>
      simp only [Process.execElection] at h
      split at h
      next starting => cases h; exact .campaign starting
      · cases h
  | countVotes now =>
      simp only [Process.execElection] at h
      split at h
      next req granted round =>
        split at h
        · cases h
        next won =>
          have won : cfg.quorum ≤ 1 + granted.length := by simpa [Raft.wonRound] using won
          split at h
          next trial => cases h; exact .wonPreVote round won trial
          next real =>
            split at h
            next later => cases h; exact .wonElection round won (by simpa using real) later
            · cases h
      · cases h
  | abandonCampaign =>
      simp only [Process.execElection] at h
      split at h
      next round => cases h; exact .abandonCampaign round
      · cases h
  | requestVote req recent => cases h; exact .requestVote
  | voteReply peer req resp => cases h; exact .voteReply
  | timeoutNow req => cases h; exact .timeoutNow

private theorem execReplication_effect {a : ReplicationAction ID}
    (h : p.execReplication cfg self T a = some out) :
    Effect cfg self M T p (.replication a) out := by
  cases a with
  | replicate peer =>
      simp only [Process.execReplication] at h
      split at h
      · cases h
      next other =>
        rw [not_not] at other
        split at h
        next failed => cases h; exact .replicatePanic other failed
        · cases h
        next built => cases h; exact .replicate other built
  | readSnapshot peer term =>
      simp only [Process.execReplication] at h
      split at h
      · cases h
      next waiting => cases h; exact .readSnapshot (not_not.mp waiting)
  | send call now =>
      simp only [Process.execReplication] at h
      split at h
      · cases h
      next able =>
        rw [not_or, not_not, Nat.not_le] at able
        cases h
        exact .send able.1 able.2
  | appendEntries sentAt req => cases h; exact .appendEntries
  | appendReply peer sentAt req resp => cases h; exact .appendReply
  | installSnapshot sentAt req => cases h; exact .installSnapshot
  | installReply peer sentAt req resp => cases h; exact .installReply

private theorem execClient_effect {a : ClientAction ID}
    (h : p.execClient cfg self a = some out) : Effect cfg self M T p (.client a) out := by
  cases a with
  | propose id data =>
      simp only [Process.execClient] at h
      split at h
      · cases h
      next running => cases h; exact .propose (by simpa using running)
  | appendProposals count =>
      simp only [Process.execClient] at h
      split at h
      · cases h
      next able =>
        cases h
        exact .appendProposals (by tauto) (by omega) (by omega)
  | readIndex id =>
      simp only [Process.execClient] at h
      split at h
      · cases h
      next running => cases h; exact .readIndex (by simpa using running)
  | startRead count now =>
      simp only [Process.execClient] at h
      split at h
      · cases h
      next able =>
        have waiting : p.reader = .waiting := by tauto
        split at h
        next refused => cases h; exact .refuseRead waiting (by omega) refused
        next started => cases h; exact .startRead waiting (by omega) started
  | checkRead =>
      simp only [Process.execClient] at h
      split at h
      · cases h
      next confirming =>
        obtain ⟨result, decided, rfl⟩ := Option.map_eq_some_iff.mp h
        exact .checkRead confirming decided
  | abandonRead err =>
      simp only [Process.execClient] at h
      split at h
      · cases h
      next confirming => cases h; exact .abandonRead confirming
  | startTransfer target now =>
      simp only [Process.execClient] at h
      split at h
      · cases h
      next later =>
        obtain ⟨⟨raft, t⟩, started, rfl⟩ := Option.map_eq_some_iff.mp h
        exact .startTransfer (by omega) started
  | targetReady t =>
      simp only [Process.execClient] at h
      split at h
      · cases h
      next able =>
        cases h
        exact .targetReady (by tauto) (by tauto)
  | sendTimeoutNow t =>
      simp only [Process.execClient] at h
      split at h
      · cases h
      next able =>
        cases h
        exact .sendTimeoutNow (by tauto) (by simpa using (show ¬ t.sent by tauto)) (by tauto)
  | endTransfer t =>
      simp only [Process.execClient] at h
      split at h
      · cases h
      next active => cases h; exact .endTransfer (not_not.mp active)
  | stop => cases h; exact .stop

private theorem execApplier_effect {a : ApplierAction} (h : p.execApplier cfg M a = some out) :
    Effect cfg self M T p (.applier a) out := by
  cases a with
  | takeWork =>
      simp only [Process.execApplier] at h
      split at h
      · cases h
      next able =>
        have waiting : p.applier = .waiting := by tauto
        have running : p.raft.stopped = false := by simpa using (show ¬ p.raft.stopped by tauto)
        split at h
        next pending => cases h; exact .takeSnapshot waiting running pending
        next pending =>
          split at h
          · cases h
          next behind =>
            split at h
            next failed => cases h; exact .takePanic waiting running pending (by omega) failed
            next cut => cases h; exact .takeEntries waiting running pending (by omega) cut
  | restore =>
      simp only [Process.execApplier] at h
      split at h
      next stage =>
        split at h
        next failed => cases h; exact .restorePanic stage failed
        next restored => cases h; exact .restore stage restored
      · cases h
  | finishRestore =>
      simp only [Process.execApplier] at h
      split at h
      next stage => cases h; exact .finishRestore stage
      · cases h
  | apply =>
      simp only [Process.execApplier] at h
      split at h
      next stage =>
        split at h
        next noop => cases h; exact .skip stage noop
        next normal =>
          split at h
          next failed => cases h; exact .applyPanic stage normal failed
          next applied => cases h; exact .apply stage normal applied
      · cases h
  | finishBatch =>
      simp only [Process.execApplier] at h
      split at h
      next stage =>
        split at h
        next final =>
          cases h
          rw [List.getLast?_eq_none_iff] at final
          subst final
          exact .finishPanic stage
        next final => cases h; exact .finishBatch stage final
      · cases h
  | snapshot data =>
      simp only [Process.execApplier] at h
      split at h
      next stage =>
        cases data with
        | none => cases h; exact .snapshotFailed stage
        | some data => cases h; exact .snapshot stage
      · cases h
  | snapshotTerm =>
      simp only [Process.execApplier] at h
      split at h
      next stage =>
        cases h
        split
        next gone => exact .snapshotOvertaken stage gone
        next held => exact .snapshotTerm stage held
      · cases h
  | saveSnapshot durable ok =>
      simp only [Process.execApplier] at h
      split at h
      next stage =>
        split at h
        · cases h
        next able =>
          cases h
          cases ok with
          | false => exact .saveFailed stage
          | true =>
              have : durable = true := by simpa using able
              subst this
              exact .saveSnapshot stage
      · cases h
  | compact =>
      simp only [Process.execApplier] at h
      split at h
      next stage => cases h; exact .compact stage
      · cases h

theorem exec_effect {a : Action ID} (h : p.exec cfg self M T a = some out) :
    Effect cfg self M T p a out := by
  cases a with
  | election a => exact execElection_effect h
  | replication a => exact execReplication_effect h
  | client a => exact execClient_effect h
  | applier a => exact execApplier_effect h

end Exec
end EdgeKV
