import Garnet.Register.Borrow

/-!
# Scripts of register operations

A script is any course of operations on a register cache, with loans nested to any depth and failing
stores, loads and actions. Its log shows what each operation gave, and the free and the cached
registers after it.
-/

namespace Garnet

namespace Register

/-- An operation on a register cache. -/
inductive Action where
  | cache (var : String)
  | cached (var : String)
  | holder (reg : Reg)
  | isDirty (var : String)
  | callerSaved (reg : Reg)
  | markDirty (var : String)
  | lock (reg : Reg)
  | unlock (reg : Reg)
  | evict (var : String)
  | evictAll
  | evictCallerSaved
  /-- Operations with a borrowed register; with a message, they fail in the end. -/
  | borrow (body : List Action) (failure : Option String)
deriving Inhabited

/-- What an operation gave, or what happened to a register on the way. -/
inductive Event where
  | done
  | reg (r : Option Reg)
  | name (var : Option String)
  | flag (b : Bool)
  | spill (s : Option Spill)
  | spills (s : List Spill)
  | spilled (s : Spill)
  | reloaded (var : String) (reg : Reg)
  | borrowed (reg : Reg)
  | returned (reg : Reg)
  | failed (message : String)
deriving DecidableEq, Repr

/-- An event and the cache after it. -/
structure LogEntry where
  event : Event
  free : List Reg
  held : List HeldVar
deriving DecidableEq, Repr

/-- Why a script fails. -/
inductive Failure where
  | exhausted
  | spill (var : String)
  | reload (var : String)
  | body (message : String)
deriving DecidableEq, Repr

def Failure.message : Failure → String
  | .exhausted => "register pool exhausted"
  | .spill var => "spill " ++ var
  | .reload var => "reload " ++ var
  | .body message => message

def Failure.text (f : Failure) : String := "emit error: " ++ f.message

/-- The state of a script: the cache, the variables whose stores and loads fail, and the log with the
last entry first. -/
structure Machine where
  cache : Cache
  failSpill : List String
  failReload : List String
  log : List LogEntry := []

/-- The registers of the pool that hold variables, in its order. -/
def Machine.heldInOrder (c : Cache) : List HeldVar := pool.filterMap fun r => c.view.find? (·.reg == r)

def Machine.note (event : Event) (m : Machine) : Machine :=
  { m with log := ⟨event, m.cache.free, heldInOrder m.cache⟩ :: m.log }

abbrev Run := EStateM Failure Machine

instance : RegisterOwner Failure Machine where
  registers := Machine.cache
  setRegisters c m := { m with cache := c }
  spill s := do
    modify (Machine.note (.spilled s))
    if (← get).failSpill.contains s.var then throw (.spill s.var)
  reload var reg := do
    modify (Machine.note (.reloaded var reg))
    if (← get).failReload.contains var then throw (.reload var)
  exhausted := .exhausted

def Action.simple (a : Action) (c : Cache) : Event × Cache :=
  match a with
  | .cache var => let (r, c) := c.cache var; (.reg r, c)
  | .cached var => (.reg (c.cached? var), c)
  | .holder reg => (.name (c.holder? reg), c)
  | .isDirty var => (.flag (c.isDirty var), c)
  | .callerSaved reg => (.flag reg.isCallerSaved, c)
  | .markDirty var => (.done, c.markDirty var)
  | .lock reg => (.done, c.lock reg)
  | .unlock reg => (.done, c.unlock reg)
  | .evict var => let (s, c) := c.evict var; (.spill s, c)
  | .evictAll => let (s, c) := c.evictAll; (.spills s, c)
  | .evictCallerSaved => let (s, c) := c.evictCallerSaved; (.spills s, c)
  | .borrow _ _ => (.done, c)

mutual

def Action.run : Action → Run Unit
  | .borrow body failure => fun m =>
    let loan : Run Reg := withRegister fun reg => do
      modify (Machine.note (.borrowed reg))
      Action.runAll body
      if let some message := failure then throw (.body message)
      return reg
    match loan m with
    | .ok reg m => .ok () (m.note (.returned reg))
    | .error e m => .error e (m.note (.failed e.text))
  | a => modify fun m =>
    let (event, c) := a.simple m.cache
    { m with cache := c }.note event

/-- Run operations in turn; a failure skips the rest. -/
def Action.runAll : List Action → Run Unit
  | [] => return
  | a :: as => do
    a.run
    Action.runAll as

end

/-- Run a script in which a failure skips the rest of the loan it happens in, and not what follows
it. -/
def runScript (m : Machine) (script : List Action) : Machine :=
  script.foldl (fun m a =>
    match a.run m with
    | .ok _ m => m
    | .error _ m => m) m

end Register

end Garnet
