import Garnet.Register.Cache

/-!
# Borrowed registers

`withRegister` lends a scratch register to an action. Whether the action succeeds or fails, the
register comes back, and so does the variable that had to leave it.
-/

namespace Garnet

/-- A state that holds a register cache and moves variables between registers and their homes. -/
class RegisterOwner (ε : outParam Type) (σ : Type) where
  registers : σ → Cache
  setRegisters : Cache → σ → σ
  /-- Store a variable to its home. -/
  spill : Spill → EStateM ε σ Unit
  /-- Load a variable from its home. -/
  reload : String → Reg → EStateM ε σ Unit
  /-- No register can be lent. -/
  exhausted : ε

section

open RegisterOwner

variable {ε σ α : Type} [RegisterOwner ε σ]

/-- Take a register back, and give it to the variable that had to leave it. -/
def returnRegister (loan : Cache.Loan) : EStateM ε σ Unit := fun s =>
  let c := ((registers s).unlock loan.reg).release loan.reg
  match loan.victim.bind fun var => (c.restore? loan.reg var).map (var, ·) with
  | some (var, c) => reload var loan.reg (setRegisters c s)
  | none => .ok () (setRegisters c s)

/-- Run an action with a scratch register that nothing else uses. A failure of the action counts
before one of the reload behind it. -/
def withRegister (body : Reg → EStateM ε σ α) : EStateM ε σ α := fun s =>
  match (registers s).take? with
  | none => .error (exhausted σ) s
  | some (loan, c) =>
    let run : EStateM ε σ α := do
      if let some store := loan.spill then spill store
      body loan.reg
    match run (setRegisters (c.lock loan.reg) s) with
    | .ok a s =>
      match returnRegister loan s with
      | .ok _ s => .ok a s
      | .error e s => .error e s
    | .error e s =>
      match returnRegister loan s with
      | .ok _ s => .error e s
      | .error _ s => .error e s

end

end Garnet
