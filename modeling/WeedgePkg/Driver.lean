import WeedgePkg.AssocMap
import WeedgePkg.GoStrings

/-!
# The driver's registries

The package-level tables of the RESP driver: command handles, the commands listed by type, the
propose and apply handles, the storagers, the RESP services and the info dump handlers. Each
is filled by `Register*` calls made at start-up and read by `DoCmd`, `Get*` and `List*`.
`RegisterCmd` tests `RegisteredCmdHandles` before it writes either table, so a replica command
is registered again and again until the command gets a normal handle; the other tables keep
their first registration, a nil handle included.
-/

namespace WeedgePkg.Driver

open Decimal AssocMap Strings

variable {H : Type}

def cmdTypeReplica : Bytes := ascii "replica"

/-- The propose and apply handle tables. -/
inductive ProposeApply where
  | writeAtPropose
  | readAtPropose
  | writeAtApply
  | readAtApply
  deriving DecidableEq, Repr

/-- `RegisteredCmdHandles`, `RegisteredReplicaCmdHandles`, `RegisteredCmdSet` and the four
propose and apply tables; a nil handle is `none`. -/
structure Registry (H : Type) where
  cmdHandles : Map Bytes H
  replicaCmdHandles : Map Bytes H
  cmdSet : Map Bytes (List Bytes)
  writeCmdAtProposeHandles : Map Bytes (Option H)
  readCmdAtProposeHandles : Map Bytes (Option H)
  writeCmdAtApplyHandles : Map Bytes (Option H)
  readCmdAtApplyHandles : Map Bytes (Option H)

namespace Registry

def empty : Registry H := ⟨[], [], [], [], [], [], []⟩

def handlesAt (r : Registry H) : ProposeApply → Map Bytes (Option H)
  | .writeAtPropose => r.writeCmdAtProposeHandles
  | .readAtPropose => r.readCmdAtProposeHandles
  | .writeAtApply => r.writeCmdAtApplyHandles
  | .readAtApply => r.readCmdAtApplyHandles

def setHandlesAt (r : Registry H) (m : Map Bytes (Option H)) : ProposeApply → Registry H
  | .writeAtPropose => { r with writeCmdAtProposeHandles := m }
  | .readAtPropose => { r with readCmdAtProposeHandles := m }
  | .writeAtApply => { r with writeCmdAtApplyHandles := m }
  | .readAtApply => { r with readCmdAtApplyHandles := m }

end Registry

def registerCmd (r : Registry H) (cmdType cmd : Bytes) (handle : Option H) : Registry H :=
  if (get r.cmdHandles cmd).isSome then r
  else
    let r := { r with cmdSet := insert r.cmdSet cmdType ((get r.cmdSet cmdType).getD [] ++ [cmd]) }
    match handle with
    | none => r
    | some h =>
      if cmdType = cmdTypeReplica then { r with replicaCmdHandles := insert r.replicaCmdHandles cmd h }
      else { r with cmdHandles := insert r.cmdHandles cmd h }

/-- The body of `RegisterWriteCmdAtPropose` and the three like it, on the table `table`. -/
def registerAt (table : ProposeApply) (r : Registry H) (_cmdType cmd : Bytes) (handle : Option H) :
    Registry H :=
  if (get (r.handlesAt table) cmd).isSome then r
  else r.setHandlesAt (insert (r.handlesAt table) cmd handle) table

def registerWriteCmdAtPropose : Registry H → Bytes → Bytes → Option H → Registry H :=
  registerAt .writeAtPropose

def registeredReadCmdAtPropose : Registry H → Bytes → Bytes → Option H → Registry H :=
  registerAt .readAtPropose

def registerWriteCmdAtApply : Registry H → Bytes → Bytes → Option H → Registry H :=
  registerAt .writeAtApply

def registeredReadCmdAtApply : Registry H → Bytes → Bytes → Option H → Registry H :=
  registerAt .readAtApply

/-- A call of one of the registration functions. -/
inductive RegistryOp (H : Type) where
  | registerCmd (cmdType cmd : Bytes) (handle : Option H)
  | registerAt (table : ProposeApply) (cmdType cmd : Bytes) (handle : Option H)

def Registry.step (r : Registry H) : RegistryOp H → Registry H
  | .registerCmd cmdType cmd handle => registerCmd r cmdType cmd handle
  | .registerAt table cmdType cmd handle => registerAt table r cmdType cmd handle

def Registry.run (r : Registry H) (ops : List (RegistryOp H)) : Registry H :=
  ops.foldl Registry.step r

/-- `c.DoCmd(ctx, cmd, cmdParams)` over the tables `r`, a handle being called with the
parameters: the handle's results as they are, or the error for a command without a handle. -/
def doCmd {ρ : Type} (tables : Unicode.CaseTable) (r : Registry (List Bytes → ρ)) (cmd : Bytes)
    (cmdParams : List Bytes) : Except Bytes ρ :=
  let cmd := toLower tables (trimSpace cmd)
  match get r.cmdHandles cmd with
  | none => .error (ascii "ERR unknown command '" ++ cmd ++ ascii "'")
  | some f => .ok (f cmdParams)

/-- `MergeRegisteredCmdHandles(src, dst, isDelSrc)`: the two maps after the loop. -/
def mergeRegisteredCmdHandles (order : IterOrder Bytes H) (src dst : Map Bytes H)
    (isDelSrc : Bool) : Map Bytes H × Map Bytes H :=
  (order.arrange src).foldl
    (fun maps entry =>
      (if isDelSrc then erase maps.1 entry.1 else maps.1,
        if (get maps.2 entry.1).isSome then maps.2 else insert maps.2 entry.1 entry.2))
    (src, dst)

/-! ## Storagers and RESP services -/

/-- The body of `RegisterStorager` and `RegisterRespCmdSrv`, for services of `kind` named by
`name`; `fmt s` is what `%s` prints for the service. -/
def registerNamed {S : Type} (kind : Bytes) (name fmt : S → Bytes) (m : Map Bytes S) (s : S) :
    Map Bytes S × Option Bytes :=
  if (get m (name s)).isSome then (m, some (kind ++ ascii " " ++ fmt s ++ ascii " is registered"))
  else (insert m (name s) s, none)

def getNamed {S : Type} (kind : Bytes) (m : Map Bytes S) (name : Bytes) : Except Bytes S :=
  match get m name with
  | none => .error (ascii "kv " ++ kind ++ ascii " " ++ name ++ ascii " is not registered")
  | some s => .ok s

def listNamed {S : Type} (order : IterOrder Bytes S) (m : Map Bytes S) : List Bytes :=
  (order.arrange m).map Prod.fst

def registerStorager {S : Type} (name fmt : S → Bytes) : Map Bytes S → S → Map Bytes S × Option Bytes :=
  registerNamed (ascii "storager") name fmt

def getStorager {S : Type} : Map Bytes S → Bytes → Except Bytes S := getNamed (ascii "storager")

def listStoragers {S : Type} : IterOrder Bytes S → Map Bytes S → List Bytes := listNamed

def registerRespCmdSrv {S : Type} (name fmt : S → Bytes) : Map Bytes S → S → Map Bytes S × Option Bytes :=
  registerNamed (ascii "RespCmdSrv") name fmt

def getRespCmdSrv {S : Type} : Map Bytes S → Bytes → Except Bytes S := getNamed (ascii "RespCmdSrv")

def listRespCmdSrvs {S : Type} : IterOrder Bytes S → Map Bytes S → List Bytes := listNamed

/-! ## Info dumps -/

/-- `RegisteredDumpHandlers` and `RegisteredDumpHandlerNames`. -/
structure DumpHandlers (D : Type) where
  handlers : Map Bytes D
  names : List Bytes

def registerDumpHandler {D : Type} (r : DumpHandlers D) (name : Bytes) (handler : D) :
    DumpHandlers D :=
  { handlers := insert r.handlers name handler
    names := if (get r.handlers name).isSome then r.names else r.names ++ [name] }

def toLow (tables : Unicode.CaseTable) (name : Bytes) : Bytes := toLower tables name

/-- `name.FirstToUp()`; `string(name)[:1]` panics on an empty name. -/
def firstToUp (tables : Unicode.CaseTable) : Bytes → Option Bytes
  | [] => none
  | b :: rest => some (toUpper tables [b] ++ rest)

def respDumpName (tables : Unicode.CaseTable) (name : Bytes) : Option Bytes :=
  (firstToUp tables name).map fun s => ascii "# " ++ s ++ ascii "\r\n"

/-! ## RegisterCmd over a run -/

def RegistryOp.cmdHandle : RegistryOp H → Bytes → Option H
  | .registerCmd cmdType cmd handle, key =>
    if cmd = key ∧ cmdType ≠ cmdTypeReplica then handle else none
  | .registerAt .., _ => none

def RegistryOp.replicaHandle : RegistryOp H → Bytes → Option H
  | .registerCmd cmdType cmd handle, key =>
    if cmd = key ∧ cmdType = cmdTypeReplica then handle else none
  | .registerAt .., _ => none

@[simp] theorem registerAt_cmdHandles (table : ProposeApply) (r : Registry H) (cmdType cmd : Bytes)
    (handle : Option H) : (registerAt table r cmdType cmd handle).cmdHandles = r.cmdHandles := by
  unfold registerAt
  split
  · rfl
  · cases table <;> rfl

@[simp] theorem registerAt_replicaCmdHandles (table : ProposeApply) (r : Registry H)
    (cmdType cmd : Bytes) (handle : Option H) :
    (registerAt table r cmdType cmd handle).replicaCmdHandles = r.replicaCmdHandles := by
  unfold registerAt
  split
  · rfl
  · cases table <;> rfl

@[simp] theorem registerAt_cmdSet (table : ProposeApply) (r : Registry H) (cmdType cmd : Bytes)
    (handle : Option H) : (registerAt table r cmdType cmd handle).cmdSet = r.cmdSet := by
  unfold registerAt
  split
  · rfl
  · cases table <;> rfl

theorem get_registerCmd_cmdHandles (r : Registry H) (cmdType cmd key : Bytes) (handle : Option H) :
    get (registerCmd r cmdType cmd handle).cmdHandles key =
      (get r.cmdHandles key).or (RegistryOp.registerCmd cmdType cmd handle |>.cmdHandle key) := by
  unfold registerCmd RegistryOp.cmdHandle
  by_cases hreg : (get r.cmdHandles cmd).isSome
  · rw [if_pos hreg]
    by_cases hk : cmd = key
    · subst hk
      obtain ⟨h, hh⟩ := Option.isSome_iff_exists.mp hreg
      simp [hh]
    · simp [hk]
  · rw [if_neg hreg]
    have hnone : get r.cmdHandles cmd = none := by simpa using hreg
    cases handle with
    | none => simp
    | some h =>
      by_cases ht : cmdType = cmdTypeReplica
      · simp [ht]
      · by_cases hk : cmd = key
        · subst hk
          simp [ht, get_insert, hnone]
        · simp [ht, get_insert, hk]

theorem get_registerCmd_replicaCmdHandles (r : Registry H) (cmdType cmd key : Bytes)
    (handle : Option H) (hkey : get r.cmdHandles key = none) :
    get (registerCmd r cmdType cmd handle).replicaCmdHandles key =
      (RegistryOp.registerCmd cmdType cmd handle |>.replicaHandle key).or
        (get r.replicaCmdHandles key) := by
  unfold registerCmd RegistryOp.replicaHandle
  by_cases hk : cmd = key
  · subst hk
    rw [if_neg (by simp [hkey])]
    cases handle with
    | none => simp
    | some h =>
      by_cases ht : cmdType = cmdTypeReplica
      · simp [ht, get_insert]
      · simp [ht]
  · split
    · simp [hk]
    · cases handle with
      | none => simp [hk]
      | some h =>
        by_cases ht : cmdType = cmdTypeReplica
        · simp [ht, get_insert, hk]
        · simp [ht, hk]

theorem get_step_cmdHandles (r : Registry H) (op : RegistryOp H) (key : Bytes) :
    get (r.step op).cmdHandles key = (get r.cmdHandles key).or (op.cmdHandle key) := by
  cases op with
  | registerCmd cmdType cmd handle => exact get_registerCmd_cmdHandles r cmdType cmd key handle
  | registerAt table cmdType cmd handle => simp [Registry.step, RegistryOp.cmdHandle]

/-- `RegisteredCmdHandles` after a run: a command keeps the first handle it is given. -/
theorem get_run_cmdHandles (r : Registry H) (ops : List (RegistryOp H)) (key : Bytes) :
    get (r.run ops).cmdHandles key = (get r.cmdHandles key).or (ops.findSome? (·.cmdHandle key)) := by
  induction ops generalizing r with
  | nil => simp [Registry.run]
  | cons op ops ih =>
    rw [Registry.run, List.foldl_cons, ← Registry.run, ih, get_step_cmdHandles, List.findSome?_cons]
    cases op.cmdHandle key <;> simp

theorem get_step_replicaCmdHandles (r : Registry H) (op : RegistryOp H) (key : Bytes)
    (hkey : get r.cmdHandles key = none) :
    get (r.step op).replicaCmdHandles key = (op.replicaHandle key).or (get r.replicaCmdHandles key) := by
  cases op with
  | registerCmd cmdType cmd handle =>
    exact get_registerCmd_replicaCmdHandles r cmdType cmd key handle hkey
  | registerAt table cmdType cmd handle => simp [Registry.step, RegistryOp.replicaHandle]

theorem get_registerCmd_replicaCmdHandles_of_isSome (r : Registry H) (cmdType cmd key : Bytes)
    (handle : Option H) (hkey : (get r.cmdHandles key).isSome) :
    get (registerCmd r cmdType cmd handle).replicaCmdHandles key = get r.replicaCmdHandles key := by
  unfold registerCmd
  by_cases hk : cmd = key
  · subst hk
    rw [if_pos hkey]
  · split
    · rfl
    · cases handle with
      | none => rfl
      | some h =>
        by_cases ht : cmdType = cmdTypeReplica
        · simp [ht, get_insert, hk]
        · simp [ht]

theorem get_step_replicaCmdHandles_of_isSome (r : Registry H) (op : RegistryOp H) (key : Bytes)
    (hkey : (get r.cmdHandles key).isSome) :
    get (r.step op).replicaCmdHandles key = get r.replicaCmdHandles key := by
  cases op with
  | registerCmd cmdType cmd handle =>
    exact get_registerCmd_replicaCmdHandles_of_isSome r cmdType cmd key handle hkey
  | registerAt table cmdType cmd handle => simp [Registry.step]

theorem get_run_replicaCmdHandles_of_isSome (r : Registry H) (ops : List (RegistryOp H))
    (key : Bytes) (hkey : (get r.cmdHandles key).isSome) :
    get (r.run ops).replicaCmdHandles key = get r.replicaCmdHandles key := by
  induction ops generalizing r with
  | nil => rfl
  | cons op ops ih =>
    have hstep : (get (r.step op).cmdHandles key).isSome := by
      rw [get_step_cmdHandles]
      obtain ⟨h, hh⟩ := Option.isSome_iff_exists.mp hkey
      simp [hh]
    rw [Registry.run, List.foldl_cons, ← Registry.run, ih _ hstep,
      get_step_replicaCmdHandles_of_isSome r op key hkey]

theorem replicaHandle_eq_none {op : RegistryOp H} {key : Bytes} (h : (op.cmdHandle key).isSome) :
    op.replicaHandle key = none := by
  cases op with
  | registerCmd cmdType cmd handle =>
    simp only [RegistryOp.cmdHandle] at h
    split at h
    · next hc => simp [RegistryOp.replicaHandle, hc.2]
    · cases h
  | registerAt => rfl

/-- `RegisteredReplicaCmdHandles` after a run, for a command with no normal handle at the
start: the handle of the last replica registration made before the command gets a normal
handle. -/
theorem get_run_replicaCmdHandles (r : Registry H) (ops : List (RegistryOp H)) (key : Bytes)
    (hkey : get r.cmdHandles key = none) :
    get (r.run ops).replicaCmdHandles key =
      ((ops.takeWhile (fun op => (op.cmdHandle key).isNone)).reverse.findSome?
        (·.replicaHandle key)).or (get r.replicaCmdHandles key) := by
  induction ops generalizing r with
  | nil => simp [Registry.run]
  | cons op ops ih =>
    rw [Registry.run, List.foldl_cons, ← Registry.run]
    cases hnormal : op.cmdHandle key with
    | some h =>
      -- the command gets a normal handle here: later replica registrations are dropped
      have hstep : (get (r.step op).cmdHandles key).isSome := by
        rw [get_step_cmdHandles, hkey, hnormal]
        rfl
      rw [get_run_replicaCmdHandles_of_isSome _ ops key hstep,
        get_step_replicaCmdHandles r op key hkey, replicaHandle_eq_none (by rw [hnormal]; rfl),
        List.takeWhile_cons_of_neg (by simp [hnormal])]
      simp
    | none =>
      have hstep : get (r.step op).cmdHandles key = none := by
        rw [get_step_cmdHandles, hkey, hnormal]
        rfl
      rw [ih _ hstep, get_step_replicaCmdHandles r op key hkey,
        List.takeWhile_cons_of_pos (by simp [hnormal]), List.reverse_cons,
        List.findSome?_append]
      cases (ops.takeWhile (fun op => (op.cmdHandle key).isNone)).reverse.findSome?
        (·.replicaHandle key) <;> cases hr : op.replicaHandle key <;> simp [hr]

theorem replica_last_before_normal :
    get (Registry.empty.run [.registerCmd cmdTypeReplica (ascii "sync") (some 1),
        .registerCmd cmdTypeReplica (ascii "sync") (some 2), .registerCmd (ascii "srv") (ascii "sync") (some 3),
        .registerCmd cmdTypeReplica (ascii "sync") (some 4)]).replicaCmdHandles (ascii "sync") = some 2 :=
  (get_run_replicaCmdHandles Registry.empty _ (ascii "sync") rfl).trans (by decide)

/-! ## DoCmd -/

theorem doCmd_run {ρ : Type} (tables : Unicode.CaseTable) (ops : List (RegistryOp (List Bytes → ρ)))
    (cmd : Bytes) (cmdParams : List Bytes) :
    doCmd tables (Registry.empty.run ops) cmd cmdParams =
      match ops.findSome? (·.cmdHandle (toLower tables (trimSpace cmd))) with
      | none => .error (ascii "ERR unknown command '" ++ toLower tables (trimSpace cmd) ++ ascii "'")
      | some f => .ok (f cmdParams) := by
  simp only [doCmd]
  rw [get_run_cmdHandles]
  rfl

theorem doCmd_of_upper {ρ : Type} (tables : Unicode.CaseTable) (ops : List (RegistryOp (List Bytes → ρ)))
    (cmd : Bytes) (cmdParams : List Bytes)
    (hupper : ∀ cmdType c handle, RegistryOp.registerCmd cmdType c handle ∈ ops → toLower tables c ≠ c) :
    doCmd tables (Registry.empty.run ops) cmd cmdParams =
      .error (ascii "ERR unknown command '" ++ toLower tables (trimSpace cmd) ++ ascii "'") := by
  have hnone : ops.findSome? (·.cmdHandle (toLower tables (trimSpace cmd))) = none := by
    rw [List.findSome?_eq_none_iff]
    intro op hop
    cases op with
    | registerCmd cmdType c handle =>
      -- what DoCmd looks up is lowered already, so it is never a key that lowering changes
      have hc : c ≠ toLower tables (trimSpace cmd) := by
        intro hc
        exact hupper cmdType c handle hop (hc ▸ toLower_toLower tables _)
      simp [RegistryOp.cmdHandle, hc]
    | registerAt => rfl
  simp only [doCmd]
  rw [get_run_cmdHandles, hnone]
  rfl

theorem doCmd_get_registered_upper :
    (∀ cmdType c handle, RegistryOp.registerCmd cmdType c handle ∈
        [RegistryOp.registerCmd (ascii "string") (ascii "GET") (some fun (_ : List Bytes) => ())] →
      toLower Unicode.latin1Table c ≠ c) ∧
    doCmd Unicode.latin1Table (Registry.empty.run [.registerCmd (ascii "string") (ascii "GET") (some fun _ => ())])
      ([0xC2, 0xA0] ++ ascii "GET" ++ [0xE3, 0x80, 0x80]) [] = .error (ascii "ERR unknown command 'get'") := by
  have hupper : ∀ cmdType c handle, RegistryOp.registerCmd cmdType c handle ∈
      [RegistryOp.registerCmd (ascii "string") (ascii "GET") (some fun (_ : List Bytes) => ())] →
      toLower Unicode.latin1Table c ≠ c := by
    intro cmdType c handle hmem
    simp only [List.mem_singleton, RegistryOp.registerCmd.injEq] at hmem
    rw [hmem.2.1]
    decide
  exact ⟨hupper, (doCmd_of_upper Unicode.latin1Table _ _ [] hupper).trans (by decide)⟩

/-! ## RegisteredCmdSet -/

theorem registerCmd_cmdSet (r : Registry H) (cmdType cmd : Bytes) (handle : Option H) :
    (registerCmd r cmdType cmd handle).cmdSet =
      if (get r.cmdHandles cmd).isSome then r.cmdSet
      else insert r.cmdSet cmdType ((get r.cmdSet cmdType).getD [] ++ [cmd]) := by
  unfold registerCmd
  split
  · rfl
  · cases handle with
    | none => rfl
    | some h =>
      dsimp only
      split <;> rfl

theorem mem_cmdSet_step {r : Registry H} {cmdType key : Bytes} (op : RegistryOp H)
    (h : key ∈ (get r.cmdSet cmdType).getD []) : key ∈ (get (r.step op).cmdSet cmdType).getD [] := by
  cases op with
  | registerCmd t c handle =>
    simp only [Registry.step, registerCmd_cmdSet]
    split
    · exact h
    · rw [get_insert]
      split
      · next ht =>
        obtain rfl := beq_iff_eq.mp ht
        simp [h]
      · exact h
  | registerAt => simpa [Registry.step] using h

theorem mem_cmdSet_registerCmd (r : Registry H) (cmdType cmd : Bytes) (handle : Option H)
    (hcmd : get r.cmdHandles cmd = none) :
    cmd ∈ (get (registerCmd r cmdType cmd handle).cmdSet cmdType).getD [] := by
  simp [registerCmd_cmdSet, hcmd, get_insert]

/-- Every command with a handle is listed in `RegisteredCmdSet`: a normal handle under a type
other than replica, a replica handle under replica. -/
structure Registry.Listed (r : Registry H) : Prop where
  cmd : ∀ key, (get r.cmdHandles key).isSome →
    ∃ cmdType, cmdType ≠ cmdTypeReplica ∧ key ∈ (get r.cmdSet cmdType).getD []
  replica : ∀ key, (get r.replicaCmdHandles key).isSome →
    key ∈ (get r.cmdSet cmdTypeReplica).getD []

theorem cmdHandle_isSome {op : RegistryOp H} {key : Bytes} (h : (op.cmdHandle key).isSome) :
    ∃ cmdType handle, op = .registerCmd cmdType key handle ∧ cmdType ≠ cmdTypeReplica := by
  cases op with
  | registerCmd cmdType cmd handle =>
    simp only [RegistryOp.cmdHandle] at h
    split at h
    · next hc => exact ⟨cmdType, handle, hc.1 ▸ rfl, hc.2⟩
    · cases h
  | registerAt => cases h

theorem replicaHandle_isSome {op : RegistryOp H} {key : Bytes} (h : (op.replicaHandle key).isSome) :
    ∃ handle, op = .registerCmd cmdTypeReplica key handle := by
  cases op with
  | registerCmd cmdType cmd handle =>
    simp only [RegistryOp.replicaHandle] at h
    split at h
    · next hc => exact ⟨handle, hc.1 ▸ hc.2 ▸ rfl⟩
    · cases h
  | registerAt => cases h

theorem Registry.Listed.step {r : Registry H} (hr : r.Listed) (op : RegistryOp H) :
    (r.step op).Listed := by
  constructor
  · intro key hkey
    rw [get_step_cmdHandles] at hkey
    cases hold : get r.cmdHandles key with
    | some h =>
      obtain ⟨cmdType, ht, hmem⟩ := hr.cmd key (by simp [hold])
      exact ⟨cmdType, ht, mem_cmdSet_step op hmem⟩
    | none =>
      -- the handle is new: this step is a normal registration of the command
      rw [hold, Option.none_or] at hkey
      obtain ⟨cmdType, handle, rfl, ht⟩ := cmdHandle_isSome hkey
      exact ⟨cmdType, ht, mem_cmdSet_registerCmd r cmdType key handle hold⟩
  · intro key hkey
    cases hold : get r.cmdHandles key with
    | some h =>
      rw [get_step_replicaCmdHandles_of_isSome r op key (by simp [hold])] at hkey
      exact mem_cmdSet_step op (hr.replica key hkey)
    | none =>
      rw [get_step_replicaCmdHandles r op key hold] at hkey
      cases hnew : op.replicaHandle key with
      | some h =>
        obtain ⟨handle, rfl⟩ :=
          replicaHandle_isSome (show (op.replicaHandle key).isSome from by simp [hnew])
        exact mem_cmdSet_registerCmd r cmdTypeReplica key handle hold
      | none =>
        rw [hnew, Option.none_or] at hkey
        exact mem_cmdSet_step op (hr.replica key hkey)

theorem Registry.Listed.run {r : Registry H} (hr : r.Listed) (ops : List (RegistryOp H)) :
    (r.run ops).Listed := by
  induction ops generalizing r with
  | nil => exact hr
  | cons op ops ih => exact ih (hr.step op)

theorem Registry.listed_empty : (Registry.empty : Registry H).Listed := by
  constructor <;> intro key h <;> cases h

/-- From the empty tables, every command that `DoCmd` or the replica table can find is listed in
`RegisteredCmdSet`. -/
theorem listed_run (ops : List (RegistryOp H)) : (Registry.empty.run ops).Listed :=
  Registry.listed_empty.run ops

/-! ## The propose and apply tables -/

def RegistryOp.handleAt : RegistryOp H → ProposeApply → Bytes → Option (Option H)
  | .registerAt table' _ cmd handle, table, key =>
    if table' = table ∧ cmd = key then some handle else none
  | .registerCmd .., _, _ => none

@[simp] theorem handlesAt_setHandlesAt (r : Registry H) (m : Map Bytes (Option H))
    (table table' : ProposeApply) :
    (r.setHandlesAt m table').handlesAt table = if table' = table then m else r.handlesAt table := by
  cases table <;> cases table' <;> rfl

@[simp] theorem handlesAt_registerCmd (r : Registry H) (cmdType cmd : Bytes) (handle : Option H)
    (table : ProposeApply) : (registerCmd r cmdType cmd handle).handlesAt table = r.handlesAt table := by
  unfold registerCmd
  split
  · rfl
  · cases handle with
    | none => cases table <;> rfl
    | some h =>
      dsimp only
      split <;> cases table <;> rfl

theorem get_step_handlesAt (r : Registry H) (op : RegistryOp H) (table : ProposeApply) (key : Bytes) :
    get ((r.step op).handlesAt table) key = (get (r.handlesAt table) key).or (op.handleAt table key) := by
  cases op with
  | registerCmd => simp [Registry.step, RegistryOp.handleAt]
  | registerAt table' cmdType cmd handle =>
    simp only [Registry.step, registerAt, RegistryOp.handleAt]
    by_cases htaken : (get (r.handlesAt table') cmd).isSome
    · rw [if_pos htaken]
      by_cases hk : table' = table ∧ cmd = key
      · obtain ⟨rfl, rfl⟩ := hk
        obtain ⟨h, hh⟩ := Option.isSome_iff_exists.mp htaken
        simp [hh]
      · simp [hk]
    · rw [if_neg htaken, handlesAt_setHandlesAt]
      by_cases ht : table' = table
      · subst ht
        by_cases hk : cmd = key
        · subst hk
          simp only [Bool.not_eq_true, Option.isSome_eq_false_iff, Option.isNone_iff_eq_none] at htaken
          simp [get_insert, htaken]
        · simp [get_insert, hk]
      · simp [ht]

/-- `RegisterWriteCmdAtPropose` and the three like it, over a run: a command keeps the first
handle registered for it in the table, so a nil handle registered first blocks every later one. -/
theorem get_run_handlesAt (r : Registry H) (ops : List (RegistryOp H)) (table : ProposeApply)
    (key : Bytes) :
    get ((r.run ops).handlesAt table) key =
      (get (r.handlesAt table) key).or (ops.findSome? (·.handleAt table key)) := by
  induction ops generalizing r with
  | nil => simp [Registry.run]
  | cons op ops ih =>
    rw [Registry.run, List.foldl_cons, ← Registry.run, ih, get_step_handlesAt, List.findSome?_cons]
    cases op.handleAt table key <;> simp

/-! ## Registering storagers and RESP services -/

theorem get_registerNamed {S : Type} (kind : Bytes) (name fmt : S → Bytes) (m : Map Bytes S) (s : S)
    (key : Bytes) :
    get (registerNamed kind name fmt m s).1 key =
      (get m key).or (if name s = key then some s else none) := by
  unfold registerNamed
  by_cases htaken : (get m (name s)).isSome
  · rw [if_pos htaken]
    by_cases hk : name s = key
    · rw [← hk]
      obtain ⟨s', hs'⟩ := Option.isSome_iff_exists.mp htaken
      simp [hs']
    · simp [hk]
  · rw [if_neg htaken]
    by_cases hk : name s = key
    · rw [← hk]
      simp only [Bool.not_eq_true, Option.isSome_eq_false_iff, Option.isNone_iff_eq_none] at htaken
      simp [get_insert, htaken]
    · simp [get_insert, hk]

/-- `GetStorager` and `GetRespCmdSrv` after services were registered in turn: the first one
registered under the name, the later ones having been refused; an unknown name is an error that
names it. -/
theorem getNamed_registered {S : Type} (kind : Bytes) (name fmt : S → Bytes) (services : List S)
    (key : Bytes) :
    getNamed kind (services.foldl (fun m s => (registerNamed kind name fmt m s).1) []) key =
      match services.find? (fun s => name s = key) with
      | none => .error (ascii "kv " ++ kind ++ ascii " " ++ key ++ ascii " is not registered")
      | some s => .ok s := by
  have hrun : ∀ (ss : List S) (m : Map Bytes S),
      get (ss.foldl (fun m s => (registerNamed kind name fmt m s).1) m) key =
        (get m key).or (ss.find? (fun s => name s = key)) := by
    intro ss
    induction ss with
    | nil => simp
    | cons s ss ih =>
      intro m
      rw [List.foldl_cons, ih, get_registerNamed, List.find?_cons]
      by_cases hk : name s = key <;> simp [hk]
  unfold getNamed
  rw [hrun services []]
  rfl

/-! ## Registering info dumps -/

/-- `RegisteredDumpHandlerNames` after handlers were registered in turn: the names of
`RegisteredDumpHandlers`, each once, in the order of their first registration; the handler
under a name is the last one registered with it. -/
theorem registerDumpHandler_run {D : Type} (regs : List (Bytes × D)) :
    let r := regs.foldl (fun r reg => registerDumpHandler r reg.1 reg.2) ⟨[], []⟩
    r.names = r.handlers.map Prod.fst ∧ ∀ name, get r.handlers name = get regs.reverse name := by
  have hrun : ∀ (rs : List (Bytes × D)) (r : DumpHandlers D), r.names = r.handlers.map Prod.fst →
      let r' := rs.foldl (fun r reg => registerDumpHandler r reg.1 reg.2) r
      r'.names = r'.handlers.map Prod.fst ∧
        r'.handlers = rs.foldl (fun m reg => insert m reg.1 reg.2) r.handlers := by
    intro rs
    induction rs with
    | nil => intro r hr; exact ⟨hr, rfl⟩
    | cons reg rs ih =>
      intro r hr
      apply ih
      simp only [registerDumpHandler, keys_insert, hr]
      by_cases hmem : reg.1 ∈ r.handlers.map Prod.fst
      · have htaken : (get r.handlers reg.1).isSome := by
          cases hg : get r.handlers reg.1 with
          | some _ => rfl
          | none =>
            simp only [AssocMap.get, Option.map_eq_none_iff, find?_key_eq_none_iff] at hg
            exact absurd hmem hg
        simp [hmem, htaken]
      · simp [hmem, AssocMap.get, find?_key_eq_none hmem]
  obtain ⟨hnames, hhandlers⟩ := hrun regs ⟨[], []⟩ rfl
  refine ⟨hnames, fun name => ?_⟩
  rw [hhandlers, get_foldl_insert]
  simp [AssocMap.get]

/-- `ToLow` undoes `FirstToUp` on a name that starts with an ASCII byte. -/
theorem toLow_firstToUp (tables : Unicode.CaseTable) (b : UInt8) (rest : Bytes) (hb : b.toNat < 0x80) :
    (firstToUp tables (b :: rest)).map (toLow tables) = some (toLow tables (b :: rest)) := by
  simp only [firstToUp, Option.map_some, toLow, toUpper_singleton_of_lt tables b hb, List.singleton_append,
    toLower_cons_of_lt tables _ _ (toNat_toUpperAscii_lt hb), toLower_cons_of_lt tables b rest hb,
    toLowerAscii_toUpperAscii]

-- A first byte above `0x7F` is not a rune on its own: `ToUpper` makes it U+FFFD.
example : (firstToUp Unicode.latin1Table [0xC3, 0xA9]).map (toLow Unicode.latin1Table) ≠
    some (toLow Unicode.latin1Table [0xC3, 0xA9]) := by
  decide

/-! ## MergeRegisteredCmdHandles -/

private theorem foldl_pair {α β γ : Type} (f : α → γ → α) (g : β → γ → β) (l : List γ) (a : α) (b : β) :
    l.foldl (fun p x => (f p.1 x, g p.2 x)) (a, b) = (l.foldl f a, l.foldl g b) := by
  induction l generalizing a b with
  | nil => rfl
  | cons x xs ih => exact ih (f a x) (g b x)

/-- `MergeRegisteredCmdHandles` in any iteration order: `dst` keeps its handles and gains
those of `src` it lacks, and `src` is emptied when `isDelSrc`. -/
theorem mergeRegisteredCmdHandles_spec (order : IterOrder Bytes H) (src dst : Map Bytes H)
    (isDelSrc : Bool) (hsrc : NodupKeys src) :
    (∀ key, get (mergeRegisteredCmdHandles order src dst isDelSrc).2 key =
      (get dst key).or (get src key)) ∧
    (mergeRegisteredCmdHandles order src dst isDelSrc).1 = if isDelSrc then [] else src := by
  have hsplit : mergeRegisteredCmdHandles order src dst isDelSrc =
      ((order.arrange src).foldl (fun m entry => if isDelSrc then erase m entry.1 else m) src,
        (order.arrange src).foldl
          (fun m entry => if (get m entry.1).isSome then m else insert m entry.1 entry.2) dst) :=
    foldl_pair (fun (m : Map Bytes H) (entry : Bytes × H) => if isDelSrc then erase m entry.1 else m)
      (fun (m : Map Bytes H) (entry : Bytes × H) =>
        if (get m entry.1).isSome then m else insert m entry.1 entry.2) (order.arrange src) src dst
  rw [hsplit]
  constructor
  · intro key
    have hnodup : NodupKeys (order.arrange src) := ((order.perm src).map Prod.fst).nodup_iff.mpr hsrc
    rw [get_foldl_insertMissing, get_of_perm (order.perm src) hnodup]
  · cases isDelSrc with
    | false => simp
    | true =>
      -- every key of the map is erased once
      simp only [if_true, foldl_erase, List.filter_eq_nil_iff]
      intro entry hentry
      have hkey : entry.1 ∈ (order.arrange src).map Prod.fst :=
        List.mem_map.mpr ⟨entry, (order.perm src).mem_iff.mpr hentry, rfl⟩
      simpa using hkey

end WeedgePkg.Driver
