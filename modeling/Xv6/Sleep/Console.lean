import Mathlib.Data.BitVec
import Xv6.Lib.Bytes
import Xv6.Lib.Ring
import Xv6.Sleep.Wakeup

/-!
# `console.c`: the line discipline

`consoleintr` edits the line that is being typed, and `consoleread` takes bytes of committed lines.
The input buffer is a ring with three counters: what has been read ends at `r`, what has been
committed at `w`, and what has been typed at `e`. The counters are 32 bits wide and wrap.

`Editor` is the line editor that the two implement, on lists. `events` and `handed` are not in the
source: they record what was typed and when a byte was taken, and what readers got. A `^D` that ends
a `read` is recorded as handed, too.

An interrupt runs on a CPU that does not hold `cons.lock`. Here it is a call by one of the
processes, which is to say by the CPU that runs it.
-/

namespace Xv6.Sleep

open List

/-- `INPUT_BUF` -/
def INPUT_BUF : Nat := 128

/-- `C(x)`, Control-x -/
def ctrl (x : Char) : Byte := BitVec.ofNat 8 (x.toNat - '@'.toNat)

/-- `'\n'` -/
def newline : Byte := 10

/-- `'\r'` -/
def carriage : Byte := 13

/-- `'\x7f'` -/
def delete : Byte := 0x7f

/-- `c = (c == '\r') ? '\n' : c` -/
def translate (c : Byte) : Byte := if c = carriage then newline else c

/-! ## The line editor -/

/-- A line editor: the bytes of all committed lines, how many of them have been taken, and the line
that is being edited. -/
structure Editor where
  committed : List Byte
  taken : Nat
  line : List Byte
  deriving DecidableEq

variable {c : Byte}

namespace Editor

inductive Event
  /-- a character is typed -/
  | typed (c : Byte)
  /-- a reader takes a byte -/
  | taken
  deriving DecidableEq

variable (ed : Editor)

/-- How many bytes the editor has room for: those of the line, and those that are committed and not
taken. -/
def used : Nat := ed.committed.length - ed.taken + ed.line.length

/-- The line is erased. -/
def kill : Editor := { ed with line := [] }

/-- The last character of the line is erased. -/
def erase : Editor := { ed with line := ed.line.dropLast }

def append (c : Byte) : Editor := { ed with line := ed.line ++ [c] }

def commit : Editor := { ed with committed := ed.committed ++ ed.line, line := [] }

/-- A line is committed by its end, by an end of file, and when there is no more room. -/
def insert (c : Byte) : Editor :=
  if c = newline ∨ c = ctrl 'D' ∨ (ed.append c).used = INPUT_BUF then (ed.append c).commit else ed.append c

def type (c : Byte) : Editor :=
  if c = ctrl 'P' then ed
  else if c = ctrl 'U' then ed.kill
  else if c = ctrl 'H' ∨ c = delete then ed.erase
  else if c = 0 ∨ INPUT_BUF ≤ ed.used then ed
  else ed.insert (translate c)

def take : Editor := { ed with taken := ed.taken + 1 }

def step : Event → Editor
  | .typed c => ed.type c
  | .taken => ed.take

/-- The editor after what has happened. -/
def after (events : List Event) : Editor := events.foldl step ⟨[], 0, []⟩

@[simp] theorem after_snoc (events : List Event) (ev : Event) : after (events ++ [ev]) = (after events).step ev :=
  foldl_append

theorem used_append {ed : Editor} : (ed.append c).used = ed.used + 1 := by
  unfold used append
  rw [length_append, ← add_assoc]
  rfl

end Editor

/-! ## The code -/

/-- `cons` without its spin lock. -/
structure Cons where
  buf : Nat → Byte
  /-- Read index -/
  r : BitVec 32
  /-- Write index -/
  w : BitVec 32
  /-- Edit index -/
  e : BitVec 32
  events : List Editor.Event
  handed : List Byte

namespace Cons

/-- `&cons.r` -/
inductive Chan
  | r
  deriving DecidableEq

variable (cons : Cons)

/-- The bytes from `r` to `e`, as a ring. -/
def ring : Ring 32 Byte := ⟨cons.buf, cons.r, cons.e⟩

/-- The bytes from `r` to `w`. -/
def committed : Ring 32 Byte := ⟨cons.buf, cons.r, cons.w⟩

/-- The bytes from `w` to `e`. -/
def editing : Ring 32 Byte := ⟨cons.buf, cons.w, cons.e⟩

def record (ev : Editor.Event) : Cons := { cons with events := cons.events ++ [ev] }

/-- `cons.e--` -/
def erase : Cons := { cons with e := cons.e - 1 }

/-- The loop of `C('U')`, and how often it may still go round. -/
def killLine : Nat → Cons → Cons
  | 0, cons => cons
  | fuel + 1, cons =>
    if cons.e ≠ cons.w ∧ cons.buf ((cons.e - 1).toNat % INPUT_BUF) ≠ newline then killLine fuel cons.erase else cons

/-- `cons.buf[cons.e++ % INPUT_BUF] = c` -/
def store (c : Byte) : Cons :=
  { cons with buf := Function.update cons.buf (cons.e.toNat % INPUT_BUF) c, e := cons.e + 1 }

/-- `cons.w = cons.e` -/
def commit : Cons := { cons with w := cons.e }

/-- `c = cons.buf[cons.r++ % INPUT_BUF]`, and whether the reader gets `c`. -/
def take (handed : Bool) : Cons :=
  { cons with
    r := cons.r + 1
    events := cons.events ++ [.taken]
    handed := if handed = true then cons.handed ++ [cons.buf (cons.r.toNat % INPUT_BUF)] else cons.handed }

/-- Where a process is in the code of `console.c`. -/
inductive Loc
  /-- outside. `ret` is what the last call returned -/
  | idle (ret : Int)
  /-- in `consoleread`, at `n > 0` or at `cons.r == cons.w` -/
  | read (dst : Nat → Bool) (target n : Int)
  /-- in `consoleread`, after the loop -/
  | readRet (target n : Int)
  /-- in `consoleintr`, at the `switch` -/
  | intr (c : Byte)
  /-- in `consoleintr`, at `wakeup` -/
  | intrWake
  | intrRet

/-- The calls. `dst` says which bytes of the reader's memory are mapped. -/
inductive Op
  | consoleread (dst : Nat → Bool) (n : Int)
  | consoleintr (c : Byte)

/-- What `consoleread` does in its loop. A `^D` that is not the first byte is put back: `r` is
incremented and decremented again under the lock. -/
def readLoop (dst : Nat → Bool) (target n : Int) (me : Self) : Do Cons Chan Loc :=
  if 0 < n then
    if cons.r = cons.w then
      if me.killed = true then .leave (.idle (-1)) else .sleep .r (.read dst target n)
    else if cons.buf (cons.r.toNat % INPUT_BUF) = ctrl 'D' then
      if n < target then .modify cons (.readRet target n) else .modify (cons.take true) (.readRet target n)
    else if dst (target - n).toNat = false then .modify (cons.take false) (.readRet target n)
    else if cons.buf (cons.r.toNat % INPUT_BUF) = newline then .modify (cons.take true) (.readRet target (n - 1))
    else .modify (cons.take true) (.read dst target (n - 1))
  else .modify cons (.readRet target n)

/-- The end of `consoleintr`'s `default`: the byte is stored. -/
def insert (c : Byte) : Do Cons Chan Loc :=
  if c = newline ∨ c = ctrl 'D' ∨ (cons.store c).e = (cons.store c).r + BitVec.ofNat 32 INPUT_BUF then
    .modify (cons.store c).commit .intrWake
  else .modify (cons.store c) .intrRet

/-- The `switch` of `consoleintr`. -/
def switch (c : Byte) : Do Cons Chan Loc :=
  if c = ctrl 'P' then .modify cons .intrRet
  else if c = ctrl 'U' then .modify (killLine (cons.e - cons.w).toNat cons) .intrRet
  else if c = ctrl 'H' ∨ c = delete then
    if cons.e ≠ cons.w then .modify cons.erase .intrRet else .modify cons .intrRet
  else if c ≠ 0 ∧ (cons.e - cons.r).toNat < INPUT_BUF then cons.insert (translate c)
  else .modify cons .intrRet

/-- `consoleread` and `consoleintr`. -/
def code : Code Unit Cons Chan Loc Op where
  call
    | .consoleread dst n, _ => some ((), .read dst n n)
    | .consoleintr c, _ => some ((), .intr c)
  body _ l me cons :=
    match l with
    | .idle ret => .leave (.idle ret)
    | .read dst target n => cons.readLoop dst target n me
    | .readRet target n => .leave (.idle (target - n))
    | .intr c => (cons.record (.typed c)).switch c
    | .intrWake => .wakeup .r .intrRet
    | .intrRet => .leave (.idle 0)

def new : Cons where
  buf _ := 0
  r := 0
  w := 0
  e := 0
  events := []
  handed := []

variable {N : Nat}

def init (pid : Fin N → Int) : System N Unit Cons Chan Loc := boot pid (.idle 0) fun _ => new

/-! ## The counters -/

variable {cons} {ed : Editor}

theorem input_buf_dvd : INPUT_BUF ∣ 2 ^ 32 := ⟨2 ^ 25, by decide⟩

theorem full_iff : cons.e = cons.r + BitVec.ofNat 32 INPUT_BUF ↔ cons.ring.count = INPUT_BUF := by
  constructor
  · intro e
    show (cons.e - cons.r).toNat = INPUT_BUF
    rw [e, add_sub_cancel_left]
    decide
  · intro e
    have hwrite := Ring.nwrite_eq (r := cons.ring)
    rw [e] at hwrite
    exact hwrite

/-- What is in the buffer is what the editor has: what is committed and not taken up to `w`, and
then its line. There is no end of a line in it, and it is empty when the buffer is full. -/
structure Shows (cons : Cons) (ed : Editor) (unread : List Byte) : Prop where
  committed : ed.committed = cons.handed ++ unread
  taken : ed.taken = cons.handed.length
  contents : cons.ring.contents INPUT_BUF = unread ++ ed.line
  written : (cons.w - cons.r).toNat = unread.length
  room : unread.length + ed.line.length ≤ INPUT_BUF
  full : ed.line ≠ [] → unread.length + ed.line.length < INPUT_BUF
  open_line : newline ∉ ed.line

namespace Shows

variable {unread : List Byte}

section

variable (h : Shows cons ed unread)
include h

theorem count : cons.ring.count = unread.length + ed.line.length := by
  have hlen : (cons.ring.contents INPUT_BUF).length = cons.ring.count := Ring.length_contents
  rw [← hlen, h.contents, length_append]

theorem used : ed.used = unread.length + ed.line.length := by
  unfold Editor.used
  rw [h.committed, h.taken, length_append, Nat.add_sub_cancel_left]

/-- The line is what is between `w` and `e`. -/
theorem line_length : (cons.e - cons.w).toNat = ed.line.length := by
  have hcount : (cons.e - cons.r).toNat = unread.length + ed.line.length := h.count
  rw [← sub_sub_sub_cancel_right cons.e cons.w cons.r, BitVec.toNat_sub_of_le]
  · rw [hcount, h.written, Nat.add_sub_cancel_left]
  · rw [BitVec.le_def, hcount, h.written]
    exact Nat.le_add_right _ _

/-- What is between `r` and `w`, and what is between `w` and `e`. -/
theorem parts :
    cons.committed.contents INPUT_BUF = unread ∧ cons.editing.contents INPUT_BUF = ed.line := by
  have hsplit : cons.ring.contents INPUT_BUF = cons.committed.contents INPUT_BUF ++ cons.editing.contents INPUT_BUF := by
    refine Ring.contents_split (m := cons.w) input_buf_dvd ?_
    show cons.ring.count = (cons.w - cons.r).toNat + (cons.e - cons.w).toNat
    rw [h.count, h.written, h.line_length]
  rw [h.contents] at hsplit
  have hlen : unread.length = (cons.committed.contents INPUT_BUF).length := by
    rw [Ring.length_contents]
    exact h.written.symm
  obtain ⟨hunread, hline⟩ := append_inj hsplit hlen
  exact ⟨hunread.symm, hline.symm⟩

theorem e_eq_w : cons.e = cons.w ↔ ed.line = [] := by
  rw [← sub_eq_zero, ← BitVec.toNat_inj, h.line_length]
  exact length_eq_zero_iff

theorem r_eq_w : cons.r = cons.w ↔ unread = [] := by
  rw [eq_comm, ← sub_eq_zero, ← BitVec.toNat_inj, h.written]
  exact length_eq_zero_iff

end

/-! ## What one key does -/

section

variable (h : Shows cons ed unread)
include h

theorem record (ev : Editor.Event) : Shows (cons.record ev) ed unread :=
  ⟨h.committed, h.taken, h.contents, h.written, h.room, h.full, h.open_line⟩

/-- `cons.e--` erases the last character of the line, and no more. -/
theorem erase (hline : ed.line ≠ []) : Shows cons.erase ed.erase unread := by
  have hcount : cons.ring.count ≠ 0 := by
    have := length_pos_of_ne_nil hline
    have := h.count
    omega
  have hback := Ring.contents_unpush input_buf_dvd hcount
  have hcontents : (cons.erase.ring).contents INPUT_BUF = unread ++ ed.line.dropLast := by
    show cons.ring.unpush.contents INPUT_BUF = _
    rw [← dropLast_append_of_ne_nil hline, ← h.contents, hback, dropLast_concat]
  have hlen : ed.line.dropLast.length = ed.line.length - 1 := length_dropLast
  have hfull := h.full hline
  refine ⟨h.committed, h.taken, hcontents, h.written, ?_, ?_, ?_⟩
  · show unread.length + ed.line.dropLast.length ≤ INPUT_BUF
    omega
  · intro _
    show unread.length + ed.line.dropLast.length < INPUT_BUF
    omega
  · intro hmem
    exact h.open_line (mem_of_mem_dropLast hmem)

/-- The byte before `e` is the last one of the line. -/
theorem last_mem (hline : ed.line ≠ []) : cons.buf ((cons.e - 1).toNat % INPUT_BUF) ∈ ed.line := by
  have hcount : cons.ring.count ≠ 0 := by
    have := length_pos_of_ne_nil hline
    have := h.count
    omega
  have hback := Ring.contents_unpush input_buf_dvd hcount
  rw [h.contents] at hback
  have hlast : (unread ++ ed.line).getLast (by simp [hline]) = cons.ring.last INPUT_BUF := by
    simp only [hback, getLast_concat]
  rw [getLast_append_of_ne_nil _ hline] at hlast
  show cons.ring.last INPUT_BUF ∈ ed.line
  rw [← hlast]
  exact getLast_mem hline

/-- The loop of `C('U')` ends at `w`: it meets no end of a line. -/
theorem killLine {n : Nat} (hn : ed.line.length = n) :
    Shows (Cons.killLine n cons) ed.kill unread := by
  induction n generalizing cons ed with
  | zero =>
    have hnil : ed.line = [] := length_eq_zero_iff.mp hn
    have hkill : ed.kill = ed := by
      unfold Editor.kill
      rw [← hnil]
    rw [hkill]
    exact h
  | succ n ih =>
    have hline : ed.line ≠ [] := by
      intro e
      rw [e] at hn
      cases hn
    have hgo : cons.e ≠ cons.w ∧ cons.buf ((cons.e - 1).toNat % INPUT_BUF) ≠ newline := by
      refine ⟨fun e => hline (h.e_eq_w.mp e), fun e => h.open_line ?_⟩
      rw [← e]
      exact h.last_mem hline
    have hlen : ed.erase.line.length = n := by
      show ed.line.dropLast.length = n
      rw [length_dropLast, hn]
      rfl
    rw [Cons.killLine, if_pos hgo]
    have hrest := ih (h.erase hline) hlen
    exact hrest

theorem store (hroom : unread.length + ed.line.length < INPUT_BUF) :
    (cons.store c).ring.contents INPUT_BUF = unread ++ (ed.line ++ [c]) := by
  have hcount := h.count
  have hw : cons.ring.count + 1 < 2 ^ 32 := by
    have : INPUT_BUF < 2 ^ 32 := by decide
    omega
  rw [← append_assoc, ← h.contents]
  exact Ring.contents_push input_buf_dvd hw (by omega)

/-- A byte is stored, and the line goes on. -/
theorem append (hc : c ≠ newline) (hroom : unread.length + ed.line.length + 1 < INPUT_BUF) :
    Shows (cons.store c) (ed.append c) unread := by
  have hlen : (ed.append c).line.length = ed.line.length + 1 := length_append
  refine ⟨h.committed, h.taken, h.store (by omega), h.written, by omega, fun _ => by omega, ?_⟩
  intro hmem
  rcases mem_append.mp hmem with hmem | hmem
  · exact h.open_line hmem
  · exact hc (mem_singleton.mp hmem).symm

/-- A byte is stored, and the line is committed. -/
theorem commit (hroom : unread.length + ed.line.length < INPUT_BUF) :
    Shows (cons.store c).commit (ed.append c).commit (unread ++ (ed.line ++ [c])) := by
  have hlen : (unread ++ (ed.line ++ [c])).length = unread.length + ed.line.length + 1 := by
    rw [length_append, length_append, add_assoc]
    rfl
  refine ⟨?_, h.taken, ?_, ?_, ?_, fun hne => absurd rfl hne, not_mem_nil⟩
  · show ed.committed ++ (ed.line ++ [c]) = cons.handed ++ (unread ++ (ed.line ++ [c]))
    rw [h.committed, append_assoc]
  · show (cons.store c).ring.contents INPUT_BUF = unread ++ (ed.line ++ [c]) ++ []
    rw [append_nil, h.store hroom]
  · show (cons.store c).ring.count = _
    rw [← h.store hroom, Ring.length_contents]
  · rw [hlen]
    exact hroom

/-- The test that `consoleintr` makes once the byte is stored. -/
theorem fills (hroom : unread.length + ed.line.length < INPUT_BUF) :
    (cons.store c).e = (cons.store c).r + BitVec.ofNat 32 INPUT_BUF ↔ (ed.append c).used = INPUT_BUF := by
  have hused : (ed.append c).used = unread.length + ed.line.length + 1 := by rw [Editor.used_append, h.used]
  have hcount : (cons.store c).ring.count = unread.length + ed.line.length + 1 := by
    have hlen : ((cons.store c).ring.contents INPUT_BUF).length = (cons.store c).ring.count := Ring.length_contents
    rw [← hlen, h.store hroom, length_append, length_append, add_assoc]
    rfl
  rw [hused, ← hcount]
  exact full_iff

theorem insert (hroom : unread.length + ed.line.length < INPUT_BUF) :
    ∃ unread', Shows ((cons.insert c).data cons) (ed.insert c) unread' := by
  unfold Cons.insert Editor.insert
  simp only [h.fills hroom]
  split
  next => exact ⟨_, h.commit hroom⟩
  next hgo =>
    push Not at hgo
    have hused : (ed.append c).used ≠ INPUT_BUF := hgo.2.2
    rw [Editor.used_append, h.used] at hused
    exact ⟨unread, h.append hgo.1 (by omega)⟩

/-- `consoleintr` does to the buffer what the editor does to its line. -/
theorem switch (c : Byte) : ∃ unread', Shows ((cons.switch c).data cons) (ed.type c) unread' := by
  unfold Cons.switch Editor.type
  split
  next => exact ⟨unread, h⟩
  next =>
    split
    next =>
      rw [h.line_length]
      exact ⟨unread, h.killLine rfl⟩
    next =>
      split
      next =>
        split
        next hline => exact ⟨unread, h.erase (mt h.e_eq_w.mpr hline)⟩
        next hline =>
          have herase : ed.erase = ed := by
            have hnil := h.e_eq_w.mp (not_not.mp hline)
            unfold Editor.erase
            rw [hnil, dropLast_nil, ← hnil]
          rw [herase]
          exact ⟨unread, h⟩
      next =>
        have hcount : (cons.e - cons.r).toNat = unread.length + ed.line.length := h.count
        rw [hcount, ← h.used]
        split
        next hgo =>
          rw [if_neg (by push Not; exact hgo)]
          exact h.insert (h.used ▸ hgo.2)
        next hgo =>
          rw [if_pos (by push Not at hgo; tauto)]
          exact ⟨unread, h⟩

end

/-- A reader takes the oldest byte of what is committed. -/
theorem take {b : Byte} {rest : List Byte} (h : Shows cons ed (b :: rest)) : Shows (cons.take true) ed.take rest := by
  have hcount : cons.ring.count ≠ 0 := by
    rw [h.count, length_cons]
    omega
  have hpop := Ring.contents_pop input_buf_dvd hcount
  rw [h.contents, cons_append] at hpop
  obtain ⟨hfront, hrest⟩ := List.cons.inj hpop
  have hwritten : (cons.w - cons.r).toNat = rest.length + 1 := h.written
  have hroom : rest.length + 1 + ed.line.length ≤ INPUT_BUF := h.room
  refine ⟨?_, ?_, hrest.symm, ?_, ?_, ?_, h.open_line⟩
  · show ed.committed = cons.handed ++ [cons.ring.front INPUT_BUF] ++ rest
    rw [h.committed, ← hfront, append_assoc, singleton_append]
  · show ed.taken + 1 = (cons.handed ++ [_]).length
    rw [length_append, h.taken]
    rfl
  · have hpopped := Ring.count_pop (r := cons.committed) (by show (cons.w - cons.r).toNat ≠ 0; omega)
    have hcommitted : cons.committed.count = rest.length + 1 := hwritten
    show cons.committed.pop.count = rest.length
    omega
  · show rest.length + ed.line.length ≤ INPUT_BUF
    omega
  · intro hline
    have hfull : rest.length + 1 + ed.line.length < INPUT_BUF := h.full hline
    show rest.length + ed.line.length < INPUT_BUF
    omega

end Shows

/-! ## One step of the code -/

/-- What `consoleintr` leaves alone when it erases. -/
structure Kept (cons cons' : Cons) : Prop where
  buf : cons'.buf = cons.buf
  r : cons'.r = cons.r
  w : cons'.w = cons.w
  events : cons'.events = cons.events

theorem killLine_kept {n : Nat} : Kept cons (killLine n cons) := by
  induction n generalizing cons with
  | zero => exact ⟨rfl, rfl, rfl, rfl⟩
  | succ n ih =>
    unfold killLine
    split
    next =>
      have hrest : Kept cons.erase (killLine n cons.erase) := ih
      exact ⟨hrest.buf, hrest.r, hrest.w, hrest.events⟩
    next => exact ⟨rfl, rfl, rfl, rfl⟩

/-- `consoleintr` changes the buffer once, and goes on to `wakeup` or to `release`. -/
theorem switch_modify (cons : Cons) (c : Byte) : ∃ cons' l,
    cons.switch c = .modify cons' l ∧ cons'.events = cons.events ∧ (l = .intrWake ∨ l = .intrRet) := by
  unfold switch
  split
  next => exact ⟨_, _, rfl, rfl, .inr rfl⟩
  next =>
    split
    next => exact ⟨_, _, rfl, killLine_kept.events, .inr rfl⟩
    next =>
      split
      next => split <;> exact ⟨_, _, rfl, rfl, .inr rfl⟩
      next =>
        split
        next =>
          unfold insert
          split
          next => exact ⟨_, _, rfl, rfl, .inl rfl⟩
          next => exact ⟨_, _, rfl, rfl, .inr rfl⟩
        next => exact ⟨_, _, rfl, rfl, .inr rfl⟩

/-- Kill line and backspace. -/
def Erases (c : Byte) : Prop := c = ctrl 'U' ∨ c = ctrl 'H' ∨ c = delete

theorem switch_erases (hc : Erases c) :
    ∃ cons', cons.switch c = .modify cons' .intrRet ∧ Kept cons cons' := by
  unfold switch
  rw [if_neg (by rcases hc with rfl | rfl | rfl <;> decide)]
  split
  next => exact ⟨_, rfl, killLine_kept⟩
  next hkill =>
    rw [if_pos (hc.resolve_left hkill)]
    split <;> exact ⟨_, rfl, rfl, rfl, rfl, rfl⟩

theorem line_erases (hc : Erases c) : (ed.type c).line.length ≤ ed.line.length := by
  unfold Editor.type
  rw [if_neg (by rcases hc with rfl | rfl | rfl <;> decide)]
  split
  next => exact Nat.zero_le _
  next hkill =>
    rw [if_pos (hc.resolve_left hkill)]
    show ed.line.dropLast.length ≤ _
    rw [length_dropLast]
    exact Nat.sub_le _ _

/-- The buffer is what the editor makes of what has happened. -/
def Edited (cons : Cons) : Prop := ∃ unread, Shows cons (Editor.after cons.events) unread

theorem new_edited : Edited new := by
  refine ⟨[], rfl, rfl, ?_, ?_, ?_, ?_, ?_⟩
  all_goals decide

/-- Every byte of the caller's buffer is mapped, if the call is a read. -/
def Loc.Mapped : Loc → Prop
  | .read dst target n => n ≤ target ∧ ∀ j : Nat, (j : Int) < target → dst j = true
  | _ => True

theorem Edited.take (h : Edited cons) (hne : cons.r ≠ cons.w) : Edited (cons.take true) := by
  obtain ⟨unread, h⟩ := h
  cases unread with
  | nil => exact absurd (h.r_eq_w.mpr rfl) hne
  | cons b rest =>
    refine ⟨rest, ?_⟩
    show Shows (cons.take true) (Editor.after (cons.events ++ [.taken])) rest
    rw [Editor.after_snoc]
    exact h.take

theorem Edited.switch (h : Edited cons) (c : Byte) :
    Edited (((cons.record (.typed c)).switch c).data cons) ∧ (((cons.record (.typed c)).switch c).view ()).2.Mapped := by
  obtain ⟨unread, h⟩ := h
  obtain ⟨unread', h'⟩ := (h.record (.typed c)).switch c
  obtain ⟨cons', l, hmodify, hevents, hl⟩ := switch_modify (cons.record (.typed c)) c
  rw [hmodify] at h' ⊢
  refine ⟨⟨unread', ?_⟩, ?_⟩
  · show Shows cons' (Editor.after cons'.events) unread'
    rw [hevents]
    show Shows cons' (Editor.after (cons.events ++ [.typed c])) unread'
    rw [Editor.after_snoc]
    exact h'
  · rcases hl with rfl | rfl <;> trivial

theorem Edited.readLoop {dst : Nat → Bool} {target n : Int} (me : Self) (h : Edited cons)
    (hl : (Loc.read dst target n).Mapped) :
    Edited ((cons.readLoop dst target n me).data cons) ∧ ((cons.readLoop dst target n me).view ()).2.Mapped := by
  unfold Cons.readLoop
  split
  next hn =>
    split
    next => split <;> first | exact ⟨h, trivial⟩ | exact ⟨h, hl⟩
    next hne =>
      have hdst : dst (target - n).toNat = true := by
        apply hl.2
        have := hl.1
        omega
      split
      next =>
        split
        next => exact ⟨h, trivial⟩
        next => exact ⟨h.take hne, trivial⟩
      next =>
        rw [if_neg (by simp [hdst])]
        split
        next => exact ⟨h.take hne, trivial⟩
        next => exact ⟨h.take hne, by have := hl.1; omega, hl.2⟩
  next => exact ⟨h, trivial⟩

/-- One step of the code under the lock. -/
theorem Edited.body {l : Loc} (me : Self) (h : Edited cons) (hl : l.Mapped) :
    Edited ((code.body () l me cons).data cons) ∧ ((code.body () l me cons).view ()).2.Mapped := by
  cases l with
  | read dst target n => exact h.readLoop me hl
  | intr c => exact h.switch c
  | _ => exact ⟨h, trivial⟩

/-! ## Every run -/

variable {s s' : System N Unit Cons Chan Loc}

/-- The buffers that reads are called with are mapped. -/
def CopiesOut : Act N Op → Prop
  | .call _ (.consoleread dst n) => ∀ j : Nat, (j : Int) < n → dst j = true
  | _ => True

structure Lines (s : System N Unit Cons Chan Loc) : Prop where
  edited : Edited (s.data ())
  mapped : ∀ p, (s.thread p).view.2.Mapped

theorem Lines.move {p : Fin N} {a : Act N Op} (h : Lines s) (ha : CopiesOut a) (hm : Move code s p a s') : Lines s' := by
  cases hm.turn with
  | stay hv hd =>
    refine ⟨?_, fun q => ?_⟩
    · rw [hd]
      exact h.edited
    · rw [hv]
      exact h.mapped q
  | @call o l m l' _ ht hc hv hd =>
    refine ⟨?_, fun q => ?_⟩
    · rw [hd]
      exact h.edited
    · rw [hv]
      refine forall_update (C := fun _ (v : Option Unit × Loc) => v.2.Mapped) ?_ (fun q _ => h.mapped q) q
      cases o with
      | consoleread dst n => cases hc; exact ⟨le_refl n, ha⟩
      | consoleintr c => cases hc; trivial
  | @act m l _ ht hv hd =>
    have hmapped := h.mapped p
    rw [ht] at hmapped
    obtain ⟨hedited, hnext⟩ := h.edited.body (s.proc p).self hmapped
    refine ⟨?_, fun q => ?_⟩
    · rw [hd, Function.update_self]
      exact hedited
    · rw [hv]
      exact forall_update (C := fun _ (v : Option Unit × Loc) => v.2.Mapped) hnext (fun q _ => h.mapped q) q

theorem reached_lines (pid : Fin N → Int) (as : List (Act N Op)) (h : run (step code) (init pid) as = some (.ok s))
    (hcopy : EachStep (step code) (fun _ a => CopiesOut a) (init pid) as) : Lines s := by
  refine run_invariant (I := Lines) ?_ ⟨new_edited, ?_⟩ hcopy h
  · intro s a s' hs ha hstep
    obtain ⟨p, hm⟩ := step_move hstep
    exact hs.move ha hm
  · intro p
    trivial

/-- The keys `a`, backspace, `b` and return are typed, and a process reads one byte. -/
def oneKeyErased (p q : Fin N) : List (Act N Op) :=
  [.call p (.consoleintr 97)] ++ replicate 3 (.go p) ++ [.call p (.consoleintr 8)] ++ replicate 3 (.go p) ++
    [.call p (.consoleintr 98)] ++ replicate 3 (.go p) ++ [.call p (.consoleintr 13)] ++ replicate 9 (.go p) ++
    [.call q (.consoleread (fun _ => true) 1)] ++ replicate 3 (.go q)

end Cons

end Xv6.Sleep
