import Zimbr.Relay.Files
import Zimbr.Relay.Leases

set_option autoImplicit false

/-!
# The relay with its upload storage

Requests that receive a file, the cleanup worker and the start of the relay
interleave with every section of the process; a crash may come between any two
system calls.
-/
namespace Zimbr.Relay
open Library Files

/-- Where a `PUT` request stands. -/
inductive Stage where
  | claimed
  | clearing (r : Removal)
  | cleared
  | created (directory : Nat)
  | receiving (t : Transfer)
  | sealed (t : Transfer)
  /-- Its transfer ends without publication. -/
  | dropping (t : Transfer)
  | closing (t : Transfer)
  | published
  | closed

structure UploadRequest where
  lease : Uploads.Lease
  stage : Stage := .claimed

inductive Cleaner where
  | idle
  | removing (r : Removal) (rest : List Bytes)
  | purging (id : Bytes) (rest : List Bytes)

def Cleaner.next : List Bytes → Cleaner
  | [] => .idle
  | id :: rest => .removing { id := id } rest

/-- `Files.recover`, before the relay runs. -/
inductive Recovery where
  | scanning
  | removing (r : Removal)
  | failed

structure Host where
  process : Process
  disk : Storage := {}
  /-- `Core.upload_files` is there. -/
  storage : Bool := false
  /-- The requests that receive a file, by the token of their lease. -/
  requests : Table Bytes UploadRequest := .empty
  /-- `Core.upload_releases`. -/
  releases : List Uploads.Lease := []
  cleaner : Cleaner := .idle
  recovery : Recovery := .scanning

inductive HostAction where
  /-- A step of the relay that is no step of a transfer. -/
  | relay (a : Action)
  | claim (env : Env) (owner epoch id : Bytes)
  | start (token : Bytes)
  | sweep (token : Bytes) (s : Sweep)
  | directory (token : Bytes) (call : Call)
  | temporary (token : Bytes) (call : Call)
  | write (token bytes : Bytes) (stored : Option Nat)
  | sealFile (token : Bytes) (call : Call)
  | complete (token : Bytes) (env : Env)
  | abort (token : Bytes)
  | unlink (token : Bytes) (call : Call)
  | release (token : Bytes) (env : Env)
  | retry (lease : Uploads.Lease) (env : Env)
  | clean (env : Env)
  | reclaim (s : Sweep)
  | purge (env : Env)
  | unavailable
  | discard (id : Bytes)
  | recover (s : Sweep)
  | launch (env : Env)
  | crash (lost : List Nat)

def Action.direct : Action → Bool
  | .launch _ | .crash => false
  | .critical _ s =>
    match s with
    | .claim _ _ _ | .complete _ | .abandon _ | .purge _ => false
    | _ => true
  | _ => true

def Process.commits (enc : Encoding) (p : Process) (env : Env) (s : Section) : Bool :=
  match (p.locked env (s.tx enc env.now)).1 with
  | .ok _ => true
  | .error _ => false

namespace Host

/-- The critical section of a cleanup pass, after the queued releases. -/
def cleanup (now : Int) : Tx (List Bytes) := do
  Uploads.expire now
  Sql.query fun j =>
    ((j.uploads.select fun _ r => decide (r.state = .deleting)).take 32).map Prod.fst

def advance (h : Host) (token : Bytes) (stage : Stage) : Host :=
  { h with requests := h.requests.modify token fun q => { q with stage := stage } }

def sweptTo (stage : Stage) : Progress → Stage
  | .going r => .clearing r
  | .done => stage
  | .failed => .closed

def request (sha256 : Bytes → Bytes) (h : Host) (token : Bytes) (q : UploadRequest) :
    HostAction → Host
  | .start _ =>
    match q.stage with
    | .claimed =>
      if (plan q.lease).isSome then h.advance token (.clearing { id := q.lease.file.id })
      else h.advance token .closed
    | _ => h
  | .sweep _ s =>
    match q.stage with
    | .clearing r =>
      let (progress, disk) := r.step h.disk s
      { h with disk := disk }.advance token (sweptTo .cleared progress)
    | _ => h
  | .directory _ call =>
    match q.stage with
    | .cleared =>
      if call = .refused then h.advance token .closed
      else match h.disk.mkdir q.lease.file.id with
      | none => h.advance token .closed
      | some (directory, disk) =>
        { h with disk := disk }.advance token
          (if call = Call.ok then .created directory else .closed)
    | _ => h
  | .temporary _ call =>
    match q.stage with
    | .created directory =>
      match plan q.lease with
      | none => h.advance token .closed
      | some plan =>
        if call = .refused then h.advance token .closed
        else match h.disk.create directory plan.temporary with
        | none => h.advance token .closed
        | some (file, disk) =>
          { h with disk := disk }.advance token
            (if call = Call.ok then .receiving { plan with directory := directory, file := file }
              else .closed)
    | _ => h
  | .write _ bytes stored =>
    match q.stage with
    | .receiving t =>
      let (written, disk) := t.write h.disk bytes stored
      { h with disk := disk }.advance token
        (match written with
          | some t => .receiving t
          | none => .dropping t)
    | _ => h
  | .sealFile _ call =>
    match q.stage with
    | .receiving t =>
      let (installed, disk) := t.sealFile sha256 h.disk call
      { h with disk := disk }.advance token (if installed then .sealed t else .dropping t)
    | _ => h
  | .abort _ =>
    match q.stage with
    | .receiving t | .sealed t => h.advance token (.dropping t)
    | .dropping _ | .closing _ => h
    | _ => h.advance token .closed
  | .unlink _ call =>
    match q.stage with
    | .dropping t =>
      { h with disk := t.unlink h.disk t.temporary call }.advance token (.closing t)
    | .closing t => { h with disk := t.unlink h.disk t.name call }.advance token .closed
    | _ => h
  | _ => h

def settle (enc : Encoding) (h : Host) (token : Bytes) (q : UploadRequest) : HostAction → Host
  | .complete _ env =>
    match q.stage with
    | .sealed t =>
      if h.process.enabled (.critical env (.complete q.lease)) then
        { h with process := h.process.step enc (.critical env (.complete q.lease)) }.advance token
          (if h.process.commits enc env (.complete q.lease) then .published else .dropping t)
      else h
    | _ => h
  | .release _ env =>
    match q.stage with
    | .closed =>
      if h.process.enabled (.critical env (.abandon q.lease)) then { h with
        process := h.process.step enc (.critical env (.abandon q.lease))
        requests := h.requests.deleteWhere fun token' _ => token' = token
        releases :=
          if h.process.commits enc env (.abandon q.lease) then h.releases
          else h.releases ++ [q.lease] }
      else h
    | _ => h
  | _ => h

def claim (enc : Encoding) (h : Host) (env : Env) (owner epoch id : Bytes) : Host :=
  if h.storage then { h with
    process := h.process.step enc (.critical env (.claim owner epoch id))
    requests :=
      match h.process.handed (.critical env (.claim owner epoch id)) with
      | lease :: _ => h.requests.upsert lease.token { lease := lease } fun _ => { lease := lease }
      | [] => h.requests }
  else h

def clean (enc : Encoding) (h : Host) : HostAction → Host
  | .retry lease env =>
    if h.storage && h.releases.contains lease then
      if h.process.enabled (.critical env (.abandon lease)) then { h with
        process := h.process.step enc (.critical env (.abandon lease))
        releases :=
          if h.process.commits enc env (.abandon lease) then
            h.releases.filter fun l => l != lease
          else h.releases }
      else h
    else h
  | .clean env =>
    match h.cleaner with
    | .idle =>
      if h.storage && h.process.enabled (.critical env .expire) then { h with
        process := h.process.step enc (.critical env .expire)
        cleaner :=
          match (h.process.locked env (cleanup env.now)).1 with
          | .ok ids => .next ids
          | .error _ => .idle }
      else h
    | _ => h
  | .reclaim s =>
    match h.cleaner with
    | .removing r rest =>
      let (progress, disk) := r.step h.disk s
      { h with
        disk := disk
        cleaner :=
          match progress with
          | .going r => .removing r rest
          | .done => .purging r.id rest
          | .failed => .next rest }
    | _ => h
  | .purge env =>
    match h.cleaner with
    | .purging id rest =>
      if h.process.enabled (.critical env (.purge id)) then { h with
        process := h.process.step enc (.critical env (.purge id))
        cleaner := if h.process.commits enc env (.purge id) then .next rest else .idle }
      else h
    | _ => h
  | _ => h

def retained (j : Journal) (id : Bytes) : Bool :=
  (j.uploads.get? id).any fun r => r.state = .ready || r.state = .pinned

def restart (enc : Encoding) (h : Host) : HostAction → Host
  | .unavailable => if h.process.running then h else { h with recovery := .failed }
  | .discard id =>
    match h.recovery with
    | .scanning =>
      if !h.process.running && validId id && (h.disk.handle? id).isSome &&
          !retained h.process.journal id then
        { h with recovery := .removing { id := id } }
      else h
    | _ => h
  | .recover s =>
    match h.recovery with
    | .removing r =>
      let (progress, disk) := r.step h.disk s
      { h with
        disk := disk
        recovery :=
          match progress with
          | .going r => .removing r
          | .done => .scanning
          | .failed => .failed }
    | _ => h
  | .launch env =>
    let recovered := env.faults.head? != some true
    -- Storage that is unavailable leaves the leases as they are.
    let ready :=
      match h.recovery with
      | .scanning => true
      | .removing _ => false
      | .failed => !recovered
    if ready && h.process.enabled (.launch env) then { h with
      process := h.process.step enc (.launch env)
      storage := recovered
      recovery := .scanning }
    else h
  | .crash lost => {
      process := h.process.step enc .crash
      disk := h.disk.lose lost }
  | _ => h

def step (sha256 : Bytes → Bytes) (enc : Encoding) (h : Host) (a : HostAction) : Host :=
  match a with
  | .relay a => if a.direct then { h with process := h.process.step enc a } else h
  | .claim env owner epoch id => h.claim enc env owner epoch id
  | .start token | .sweep token _ | .directory token _ | .temporary token _ | .write token _ _
  | .sealFile token _ | .abort token | .unlink token _ =>
    match h.requests.get? token with
    | some q => h.request sha256 token q a
    | none => h
  | .complete token _ | .release token _ =>
    match h.requests.get? token with
    | some q => h.settle enc token q a
    | none => h
  | .retry _ _ | .clean _ | .reclaim _ | .purge _ => h.clean enc a
  | .unavailable | .discard _ | .recover _ | .launch _ | .crash _ => h.restart enc a

/-- What holds after each group of actions, and of the host that an action passes by,
holds after a step. -/
theorem step_cases {P : HostAction → Host → Prop} {sha256 : Bytes → Bytes} {enc : Encoding}
    {h : Host} (hidle : ∀ a, P a h)
    (hrelay : ∀ b : Action, b.direct = true →
      P (.relay b) { h with process := h.process.step enc b })
    (hclaim : ∀ env owner epoch id,
      P (.claim env owner epoch id) (h.claim enc env owner epoch id))
    (hrequest : ∀ token q a, h.requests.get? token = some q → P a (h.request sha256 token q a))
    (hsettle : ∀ token q a, h.requests.get? token = some q → P a (h.settle enc token q a))
    (hclean : ∀ a, P a (h.clean enc a)) (hrestart : ∀ a, P a (h.restart enc a))
    (a : HostAction) : P a (h.step sha256 enc a) := by
  unfold step
  cases a
  case relay b =>
    dsimp only
    split_ifs with hdirect
    · exact hrelay b hdirect
    · exact hidle _
  case claim env owner epoch id => exact hclaim env owner epoch id
  case retry | clean | reclaim | purge => exact hclean _
  case unavailable | discard | recover | launch | crash => exact hrestart _
  case complete | release =>
    dsimp only
    split
    · next q hq => exact hsettle _ q _ hq
    · exact hidle _
  all_goals
    dsimp only
    split
    · next q hq => exact hrequest _ q _ hq
    · exact hidle _

end Host

end Zimbr.Relay
