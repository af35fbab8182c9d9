import Garnet.Assembly.Line
import Std.Data.HashMap

/-!
# The register cache

Three registers hold local variables. A variable that is cached can be newer than its home in the
frame, and is then dirty. A variable gets a register only while one is free; a scratch register is
taken from the free ones, or else from the cached variable that is used least.

Every register of the pool is free, holds a variable, or is lent out.
-/

namespace Garnet

/-- The registers that hold variables and serve as scratch, in the order in which they are taken. -/
def pool : List Reg := [.edx, .ecx, .edi]

/-- A variable in a register. -/
structure CachedVar where
  var : String
  reg : Reg
deriving DecidableEq, Repr

/-- A variable in a register, with the mark whether the register is newer than the home. -/
structure HeldVar extends CachedVar where
  dirty : Bool
deriving DecidableEq, Repr

/-- A store of a variable from its register to its home. -/
structure Spill where
  var : String
  reg : Reg
deriving DecidableEq, Repr

/-- Which variables are in registers, and which registers are free. -/
structure Cache where
  /-- How often each variable is used; a variable that is not here is never cached. -/
  uses : Std.HashMap String Nat
  held : List CachedVar := []
  free : List Reg := pool
  /-- The variables whose registers are newer than their homes, none of them twice. -/
  dirty : List String := []
  locked : List Reg := []

namespace Cache

def new (uses : List (String × Nat)) : Cache where
  uses := uses.foldl (fun m (v, n) => m.insert v n) {}

/-- The place of a variable among the cached ones. -/
def place? (c : Cache) (var : String) : Option CachedVar := c.held.find? (·.var == var)

def cached? (c : Cache) (var : String) : Option Reg := (c.place? var).map CachedVar.reg

def holder? (c : Cache) (reg : Reg) : Option String :=
  (c.held.find? (·.reg == reg)).map CachedVar.var

def isDirty (c : Cache) (var : String) : Bool := c.dirty.contains var

/-- What is in the registers. -/
def view (c : Cache) : List HeldVar := c.held.map fun e => { e with dirty := c.isDirty e.var }

/-- A register for a variable: the one that holds it, or a free one that the caller has to load. -/
def cache (c : Cache) (var : String) : Option Reg × Cache :=
  match c.cached? var with
  | some reg => (some reg, c)
  | none =>
    match c.free with
    | reg :: free =>
      if c.uses.contains var then
        (some reg, { c with held := ⟨var, reg⟩ :: c.held, free })
      else (none, c)
    | [] => (none, c)

/-- The register of a variable is newer than its home. -/
def markDirty (c : Cache) (var : String) : Cache :=
  { c with dirty := if (c.cached? var).isSome && !c.isDirty var then var :: c.dirty else c.dirty }

def release (c : Cache) (reg : Reg) : Cache :=
  if c.free.contains reg then c
  else { c with free := pool.filter fun r => r == reg || c.free.contains r }

/-- Take a variable out of its register; a dirty one has to be stored. -/
def evict (c : Cache) (var : String) : Option Spill × Cache :=
  match c.place? var with
  | none => (none, c)
  | some e =>
    let left := { c with held := c.held.filter (·.var != var), dirty := c.dirty.filter (· != var) }
    (if c.isDirty var then some ⟨var, e.reg⟩ else none, left.release e.reg)

/-- Take several variables out of their registers. -/
def evictEach (c : Cache) : List String → List Spill × Cache
  | [] => ([], c)
  | var :: vars =>
    let (spill, c) := c.evict var
    let (spills, c) := c.evictEach vars
    (spill.toList ++ spills, c)

/-- Take the variables out of the registers that satisfy `p`, in the order of the pool; locked
registers keep theirs. -/
def evictWhere (c : Cache) (p : Reg → Bool) : List Spill × Cache :=
  c.evictEach ((pool.filter fun r => p r && !c.locked.contains r).filterMap c.holder?)

def evictAll (c : Cache) : List Spill × Cache := c.evictWhere fun _ => true

/-- Make room for a call of the run-time library. -/
def evictCallerSaved (c : Cache) : List Spill × Cache := c.evictWhere Reg.isCallerSaved

def lock (c : Cache) (reg : Reg) : Cache :=
  if c.locked.contains reg then c else { c with locked := reg :: c.locked }

def unlock (c : Cache) (reg : Reg) : Cache :=
  { c with locked := c.locked.filter (· != reg) }

def weight (c : Cache) (var : String) : Nat := c.uses[var]?.getD 0

/-- Whether a variable is worth less than another one: it is used less, or as often and its name
comes first. -/
def isLess (c : Cache) (a b : String) : Bool :=
  c.weight a < c.weight b || (c.weight a == c.weight b && a < b)

/-- The cached variable that is worth least, among those in registers that are not locked. -/
def victim? (c : Cache) : Option String :=
  ((c.held.filter fun e => !c.locked.contains e.reg).map CachedVar.var).foldl
    (fun best v =>
      match best with
      | none => some v
      | some b => if c.isLess v b then some v else some b) none

/-- A register that is lent out, the variable that had to leave it, and the store it needs. -/
structure Loan where
  reg : Reg
  victim : Option String := none
  spill : Option Spill := none
deriving DecidableEq, Repr

def take? (c : Cache) : Option (Loan × Cache) :=
  match c.free with
  | reg :: free => some ({ reg }, { c with free })
  | [] => do
    let victim ← c.victim?
    let (spill, c) := c.evict victim
    match c.free with
    | reg :: free => some (⟨reg, some victim, spill⟩, { c with free })
    | [] => none

/-- Give a register back to the variable that had to leave it. `none` if the variable has found
another one, or the register is in use. -/
def restore? (c : Cache) (reg : Reg) (var : String) : Option Cache :=
  if (c.cached? var).isSome || !c.free.contains reg then none
  else some { c with held := ⟨var, reg⟩ :: c.held, free := c.free.filter (· != reg) }

end Cache

end Garnet
