import Xv6.Lib.Prog
import Mathlib.Data.List.Basic

/-!
# Writing to the console

`consolewrite` of `console.c` with `uartputc` and `uartstart` of `uart.c`, over the CPU's spin
locks, which `sleep` and `sched` of `proc.c` look at. The device is what it answers: the readings of
`LSR_TX_IDLE`, and the transmit interrupts that other CPUs handle while `uart_tx_lock` is free.

`consolewrite` holds `cons.lock` all the time, and `uartputc` sleeps when its buffer is full. There
is no harm as long as the buffer has room for every byte; the first byte that finds it full makes
`sched` panic.
-/

namespace Xv6.Uart

open Prog

def UART_TX_BUF_SIZE : Nat := 32

/-- The transmit buffer, and the device. -/
structure Tx where
  /-- `uart_tx_buf` -/
  buf : Nat → UInt8
  /-- `uart_tx_w` -/
  w : Nat
  /-- `uart_tx_r` -/
  r : Nat
  /-- whether the transmit holding register is empty, at each reading to come -/
  lsr : Nat → Bool
  /-- how many transmit interrupts there are before each time that `uart_tx_lock` is taken -/
  intr : Nat → Nat
  /-- what has been written to the register -/
  sent : List UInt8

namespace Tx

variable (u : Tx)

/-- `((uart_tx_w + 1) % UART_TX_BUF_SIZE) == uart_tx_r` -/
def Full : Prop := (u.w + 1) % UART_TX_BUF_SIZE = u.r

instance : Decidable u.Full := inferInstanceAs (Decidable (_ = _))

/-- One reading of the status register. -/
def readLsr : Tx := { u with lsr := fun k => u.lsr (k + 1) }

/-- `uart_tx_r = (uart_tx_r + 1) % UART_TX_BUF_SIZE; WriteReg(THR, c)` -/
def send : Tx := { u with r := (u.r + 1) % UART_TX_BUF_SIZE, sent := u.sent ++ [u.buf u.r] }

/-- `uart_tx_buf[uart_tx_w] = c; uart_tx_w = (uart_tx_w + 1) % UART_TX_BUF_SIZE` -/
def store (c : UInt8) : Tx := { u with buf := Function.update u.buf u.w c, w := (u.w + 1) % UART_TX_BUF_SIZE }

/-- The loop of `uartstart`. -/
def startLoop : Nat → Tx → Tx
  | 0, u => u
  | k + 1, u =>
    if u.w = u.r then u
    else if u.lsr 0 = false then u.readLsr
    else startLoop k u.readLsr.send

/-- `uartstart`. The buffer is empty after `UART_TX_BUF_SIZE` turns at the latest. -/
def uartstart : Tx := startLoop UART_TX_BUF_SIZE u

/-- What other CPUs do in `uartintr`. -/
def interrupts : Nat → Tx → Tx
  | 0, u => u
  | k + 1, u => interrupts k u.uartstart

def others : Tx := { u.interrupts (u.intr 0) with intr := fun k => u.intr (k + 1) }

/-- A byte is put into the buffer. -/
def put (c : UInt8) : Tx := (u.store c).uartstart

end Tx

inductive Lock
  /-- `cons.lock` -/
  | cons
  /-- `uart_tx_lock` -/
  | uartTx
  /-- `p->lock` -/
  | proc
  deriving DecidableEq, Repr

inductive Panic
  | acquire
  | release
  | popOff
  | schedLock
  | schedLocks
  deriving DecidableEq, Repr

/-- Why a call does not return. -/
inductive Stop
  | panic (p : Panic)
  /-- `for(;;)`, after a panic elsewhere -/
  | spins
  /-- asleep and not woken again -/
  | asleep
  deriving DecidableEq, Repr

/-- A call of `sleep`: `noff`, the locks that the CPU holds, and the one that is passed. -/
structure SleepCall where
  noff : Nat
  held : List Lock
  lk : Lock
  deriving DecidableEq, Repr

/-- The CPU holds the lock that is passed to `sleep` and no other. -/
def SleepCall.OneLock (x : SleepCall) : Prop := x.noff = 1 ∧ x.held = [x.lk]

/-- The CPU of the caller, and the device. `sleeps` is not in the source. -/
structure Machine where
  uart : Tx
  /-- `mycpu()->noff` -/
  noff : Nat
  /-- the spin locks that the CPU holds -/
  held : List Lock
  panicked : Bool
  sleeps : List SleepCall

namespace Machine

variable (s : Machine)

def setUart (u : Tx) : Machine := { s with uart := u }

def setNoff (n : Nat) : Machine := { s with noff := n }

def setHeld (ls : List Lock) : Machine := { s with held := ls }

def addSleep (x : SleepCall) : Machine := { s with sleeps := s.sleeps ++ [x] }

end Machine

abbrev Call := Prog Machine Stop

def acquire (lk : Lock) : Call Unit := do
  change fun s => s.setNoff (s.noff + 1)
  let held ← read Machine.held
  if lk ∈ held then stop (.panic .acquire)
  else do
    onlyIf (lk = .uartTx) (change fun s => s.setUart s.uart.others)
    change fun s => s.setHeld (lk :: s.held)

def release (lk : Lock) : Call Unit := do
  let held ← read Machine.held
  if lk ∉ held then stop (.panic .release)
  else do
    change fun s => s.setHeld (s.held.erase lk)
    let noff ← read Machine.noff
    if noff < 1 then stop (.panic .popOff)
    else change fun s => s.setNoff (s.noff - 1)

def sched : Call Unit := do
  let held ← read Machine.held
  let noff ← read Machine.noff
  if Lock.proc ∉ held then stop (.panic .schedLock)
  else if noff ≠ 1 then stop (.panic .schedLocks)
  else return ()

/-- `sleep`, with a lock other than `p->lock`. -/
def sleep (lk : Lock) : Call Unit := do
  change fun s => s.addSleep ⟨s.noff, s.held, lk⟩
  acquire .proc
  release lk
  sched
  release .proc
  acquire lk

/-- The loop of `uartputc`, which may sleep fewer than `fuel` times. -/
def putLoop (c : UInt8) : Nat → Call Unit
  | 0 => stop .asleep
  | fuel + 1 => do
    let u ← read Machine.uart
    if u.Full then do
      sleep .uartTx
      putLoop c fuel
    else do
      change fun s => s.setUart (s.uart.put c)
      release .uartTx

def uartputc (fuel : Nat) (c : UInt8) : Call Unit := do
  acquire .uartTx
  let panicked ← read Machine.panicked
  if panicked = true then stop .spins
  else putLoop c fuel

/-- The loop of `consolewrite`, with `k` turns left. `src` is the buffer, as far as it is mapped. -/
def writeLoop (fuel : Nat) (src : Nat → Option UInt8) : Nat → Nat → Call Int
  | 0, i => return i
  | k + 1, i =>
    match src i with
    | none => return i
    | some c => do
      uartputc fuel c
      writeLoop fuel src k (i + 1)

def consolewrite (fuel : Nat) (src : Nat → Option UInt8) (n : Int) : Call Int := do
  acquire .cons
  let i ← writeLoop fuel src n.toNat 0
  release .cons
  return i

/-- Each of the next `k` bytes finds room in the buffer. -/
def Room (src : Nat → Option UInt8) : Nat → Nat → Tx → Prop
  | 0, _, _ => True
  | k + 1, i, u =>
    match src i with
    | none => True
    | some c => ¬ u.others.Full ∧ Room src k (i + 1) (u.others.put c)

/-- The bytes that are written: up to the first that cannot be read. -/
def readable (src : Nat → Option UInt8) : Nat → Nat → Nat
  | 0, i => i
  | k + 1, i => if (src i).isSome then readable src k (i + 1) else i

variable {fuel : Nat} {src : Nat → Option UInt8}

/-- The CPU outside the kernel's locks. -/
def idle (u : Tx) : Machine := ⟨u, 0, [], false, []⟩

/-- The CPU in `consolewrite`, between two bytes. -/
def writing (u : Tx) : Machine := ⟨u, 1, [.cons], false, []⟩

/-- The CPU in `sched`, which `sleep` has called with `cons.lock` held. -/
def stuck (u : Tx) : Machine := ⟨u, 2, [.proc, .cons], false, [⟨2, [.uartTx, .cons], .uartTx⟩]⟩

/-- A byte is put into the buffer, or there is no room for it and `sched` panics. -/
theorem uartputc_eq (u : Tx) (c : UInt8) : uartputc (fuel + 1) c (writing u) =
    if u.others.Full then .stop (.panic .schedLocks) (stuck u.others) else .ok () (writing (u.others.put c)) := by
  unfold uartputc
  rw [bind_of_ok (show acquire .uartTx (writing u) = .ok () ⟨u.others, 2, [.uartTx, .cons], false, []⟩ from rfl)]
  show (if u.others.Full then _ else _ : Call Unit) _ = _
  split
  next => rfl
  next => rfl

theorem writeLoop_room {k i : Nat} {u : Tx} (h : Room src k i u) :
    ∃ u', writeLoop (fuel + 1) src k i (writing u) = .ok (readable src k i : Int) (writing u') := by
  induction k generalizing i u with
  | zero => exact ⟨u, rfl⟩
  | succ k ih =>
    rw [writeLoop, readable]
    rw [Room] at h
    cases hc : src i with
    | none => exact ⟨u, rfl⟩
    | some c =>
      rw [hc] at h
      have hput : uartputc (fuel + 1) c (writing u) = _ := uartputc_eq u c
      rw [if_neg h.1] at hput
      show ∃ u', (uartputc (fuel + 1) c >>= fun _ => writeLoop (fuel + 1) src k (i + 1)) (writing u) =
        .ok (readable src k (i + 1) : Int) (writing u')
      rw [bind_of_ok hput]
      exact ih h.2

theorem writeLoop_full {k i : Nat} {u : Tx} (h : ¬ Room src k i u) :
    ∃ u', writeLoop (fuel + 1) src k i (writing u) = .stop (.panic .schedLocks) (stuck u') := by
  induction k generalizing i u with
  | zero => exact absurd trivial h
  | succ k ih =>
    rw [writeLoop]
    rw [Room] at h
    cases hc : src i with
    | none =>
      rw [hc] at h
      exact absurd trivial h
    | some c =>
      rw [hc] at h
      have hput : uartputc (fuel + 1) c (writing u) = _ := uartputc_eq u c
      show ∃ u', (uartputc (fuel + 1) c >>= fun _ => writeLoop (fuel + 1) src k (i + 1)) (writing u) = _
      by_cases hfull : u.others.Full
      · rw [if_pos hfull] at hput
        exact ⟨u.others, bind_of_stop hput⟩
      · rw [if_neg hfull] at hput
        rw [bind_of_ok hput]
        exact ih fun hroom => h ⟨hfull, hroom⟩

/-- Whatever is written and whatever the device does, a write for whose bytes there is room returns,
every call of `sleep` having been made with one lock. -/
theorem consolewrite_one_lock (fuel : Nat) (src : Nat → Option UInt8) (n : Int) (u : Tx) (h : Room src n.toNat 0 u) :
    wp (consolewrite (fuel + 1) src n) (fun r s' => r = readable src n.toNat 0 ∧
      (∀ x ∈ s'.sleeps, x.OneLock) ∧ s'.noff = 0 ∧ s'.held = [])
      never (idle u) := by
  obtain ⟨u', hloop⟩ := writeLoop_room h
  have hwrite : consolewrite (fuel + 1) src n (idle u) = .ok (readable src n.toNat 0 : Int) (idle u') := by
    unfold consolewrite
    rw [bind_of_ok (show acquire .cons (idle u) = .ok () (writing u) from rfl), bind_of_ok hloop]
    rfl
  apply wp_of_ok hwrite
  exact ⟨rfl, fun x hx => absurd hx List.not_mem_nil, rfl, rfl⟩

/-- An empty buffer, and a device that is never ready. -/
def slow : Tx := ⟨fun _ => 0, 0, 0, fun _ => false, fun _ => 0, []⟩

theorem consolewrite_one_lock_slow : Room (fun _ => some 97) 2 0 slow ∧
    wp (consolewrite 1 (fun _ => some 97) 2) (fun r s' => r = 2 ∧ (∀ x ∈ s'.sleeps, x.OneLock) ∧
      s'.noff = 0 ∧ s'.held = []) never (idle slow) := by
  have hroom : Room (fun _ => some 97) 2 0 slow := ⟨by decide, by decide, trivial⟩
  exact ⟨hroom, consolewrite_one_lock 0 (fun _ => some 97) 2 slow hroom⟩

/-- Otherwise `sched` panics, called by `sleep` with two locks held. -/
theorem consolewrite_full (fuel : Nat) (n : Int) {u : Tx} (h : ¬ Room src n.toNat 0 u) :
    ∃ u', consolewrite (fuel + 1) src n (idle u) = .stop (.panic .schedLocks) (stuck u') := by
  obtain ⟨u', hloop⟩ := writeLoop_full h
  refine ⟨u', ?_⟩
  unfold consolewrite
  rw [bind_of_ok (show acquire .cons (idle u) = .ok () (writing u) from rfl)]
  exact bind_of_stop hloop

theorem consolewrite_full_behind : ∃ u', consolewrite 1 (fun _ => some 97) 1 (idle { slow with w := 31 }) =
    .stop (.panic .schedLocks) (stuck u') :=
  consolewrite_full 0 1 fun h => h.1 (by decide)

/-- The last of 32 bytes finds 31 of them in the buffer. -/
theorem consolewrite_panics : ∃ s', consolewrite 1 (fun _ => some 97) 32 (idle slow) = .stop (.panic .schedLocks) s' ∧
    ∃ x ∈ s'.sleeps, ¬ x.OneLock := by
  refine ⟨_, rfl, ⟨2, [.uartTx, .cons], .uartTx⟩, List.mem_singleton_self _, ?_⟩
  intro h
  cases h.1

end Xv6.Uart
