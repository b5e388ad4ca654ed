import Mathlib
import Xv6.Lib.Reach
import Xv6.Lib.Holders
import Xv6.Lib.Tally
import Xv6.Pipe
import Xv6.Proc.Table
import Xv6.Sys.File

/-!
# Open files: the file table, descriptors and pipe ends

`ftable` in `file.c` holds `NFILE` entries of `struct file`, each counting its
references in `ref`, and `proc->ofile[fd]` are a process's descriptors. `filealloc` takes
the first entry with `ref == 0`; `filedup` adds a reference; `fileclose` drops one, and
when it drops the last it copies the entry, marks it `FD_NONE` and, after the lock,
closes the pipe end (`pipeclose`) or the inode (`iput`) the copy names. `pipeclose`
frees the pipe's page once both of its ends are closed.

The calls are sequences of critical sections and of writes to the caller's own
descriptors, and each of those is a step here:
- `sys_open`: `filealloc`; then `fdalloc`, after which the entry becomes `FD_INODE`, or
  with no free descriptor `fileclose` of the entry;
- `sys_dup`: `fdalloc` of the entry a descriptor names, then `filedup`;
- `sys_close`: the descriptor is cleared, then `fileclose`;
- `sys_pipe`: `pipealloc` (two `filealloc`s and the `kalloc` of the page; after a
  failure, `fileclose` of the entries it got), then two `fdalloc`s (after a failure,
  the first descriptor is cleared and both entries are closed);
- `fork`: a new process with the parent's descriptors, each entry `filedup`ed;
- `exit`: for each descriptor `fileclose`, then the descriptor is cleared;
- `wait`: the zombie's slot becomes `UNUSED`.
A process may take these steps in any order their preconditions allow, which includes
every order the code takes them in.

Ghost state says where the calls stand: the entries a call has taken and not placed in
a descriptor (`held`), the descriptors `sys_dup` has filled and not yet `filedup`ed
(`dups`), those `exit` has closed and not yet cleared (`exited`), and the pipe ends
whose `pipeclose` a `fileclose` still owes (`pending`). The inodes of `FD_INODE` entries
are `Fs.Icache`'s business, and a process's state other than `UNUSED` and `ZOMBIE`
does not matter here.
-/

namespace Xv6

/-- `#define NFILE 100` -/
def NFILE : Nat := 100

/-- The `type` of a `struct file`, with the fields `fileclose` reads for it: the pipe and
its end (`writable`), or the inode. -/
inductive FType where
  | none
  | pipe (q : Nat) (writable : Bool)
  | inode (ip : Nat)
  deriving DecidableEq

/-- An entry of `ftable.file`. -/
structure FileEnt where
  type : FType
  ref : Nat

abbrev Ftable := Fin NFILE → FileEnt

/-- A slot of `ptable` as the files see it: `UNUSED`, `ZOMBIE`, or any other state. -/
inductive PState where
  | unused
  | live
  | zombie
  deriving DecidableEq

/-- The page `kalloc` gives `pipealloc`, filled with the junk bytes of `kfree`, with
both ends open and no byte written. -/
def Pipe.fresh : Pipe := ⟨fun _ => 1, 0, 0, true, true⟩

/-! ## The code -/

/-- `filealloc`: the first entry with `ref == 0`, given one reference. -/
def filealloc (ft : Ftable) : Option (Fin NFILE × Ftable) :=
  match (List.finRange NFILE).find? fun f => (ft f).ref = 0 with
  | some f => some (f, Function.update ft f { ft f with ref := 1 })
  | none => none

def filedup (ft : Ftable) (f : Fin NFILE) : Except String Ftable :=
  if (ft f).ref < 1 then throw "filedup"
  else pure (Function.update ft f { ft f with ref := (ft f).ref + 1 })

/-- The critical section of `fileclose`: one reference to `f` less, and when it was the
last, the copy `ff` of the entry, whose pipe end or inode is closed after the lock. -/
def fileclose (ft : Ftable) (f : Fin NFILE) : Except String (Ftable × Option FType) :=
  if (ft f).ref < 1 then throw "fileclose"
  else if (ft f).ref - 1 > 0 then
    pure (Function.update ft f { ft f with ref := (ft f).ref - 1 }, none)
  else pure (Function.update ft f { type := .none, ref := 0 }, some (ft f).type)

/-- `fdalloc`: the first free descriptor. -/
def fdalloc (ofile : Fin NOFILE → Option (Fin NFILE)) : Option (Fin NOFILE) :=
  (List.finRange NOFILE).find? fun fd => ofile fd = none

/-- `pipeclose` and the `kfree` of the page once both ends are closed (`none`). -/
def pipecloseFree (p : Pipe) (writable : Bool) : Option Pipe :=
  let p := pipeclose p writable
  if p.readopen = false ∧ p.writeopen = false then none else some p

/-- The loop of `fork` over the parent's descriptors: `filedup` of each entry one names. -/
def forkFiles (ofile : Fin NOFILE → Option (Fin NFILE)) :
    List (Fin NOFILE) → Ftable → Except String Ftable
  | [], ft => pure ft
  | fd :: fds, ft =>
    match ofile fd with
    | some f => do
      let ft ← filedup ft f
      forkFiles ofile fds ft
    | none => forkFiles ofile fds ft

/-! ## The system -/

/-- The file table, the pipe pages, the processes and their descriptors, and where the
calls stand. -/
structure FtSys where
  file : Ftable
  pipes : Nat → Option Pipe
  proc : Fin NPROC → PState
  ofile : Fin NPROC → Fin NOFILE → Option (Fin NFILE)
  held : List (Fin NPROC × Fin NFILE)
  dups : List (Fin NPROC × Fin NOFILE)
  exited : List (Fin NPROC × Fin NOFILE)
  pending : List (Fin NPROC × (Nat × Bool))

namespace FtSys

/-- Descriptor `fd` of process `p` set to `v`. -/
def setFd (s : FtSys) (p : Fin NPROC) (fd : Fin NOFILE) (v : Option (Fin NFILE)) : FtSys :=
  { s with ofile := Function.update s.ofile p (Function.update (s.ofile p) fd v) }

/-- Descriptor slot `x` counts as a reference: its process is not `UNUSED`, and neither
`sys_dup` nor `exit` is between its two steps on it. -/
def Counted (s : FtSys) (x : Fin NPROC × Fin NOFILE) : Prop :=
  s.proc x.1 ≠ .unused ∧ x ∉ s.dups ∧ x ∉ s.exited

instance (s : FtSys) (x : Fin NPROC × Fin NOFILE) : Decidable (s.Counted x) :=
  inferInstanceAs (Decidable (_ ∧ _))

/-- The state after the critical section of `fileclose` by `p` left table `ft` and the
copy `o`: a pipe end in the copy is owed a `pipeclose`. -/
def afterClose (s : FtSys) (p : Fin NPROC) (ft : Ftable) : Option FType → FtSys
  | some (.pipe q w) => { s with file := ft, pending := (p, (q, w)) :: s.pending }
  | _ => { s with file := ft }

end FtSys

/-- A step of process `p`, or of the parent `p` in `fork` and `wait`. -/
inductive FtCall where
  | filealloc (p : Fin NPROC)
  | openFd (p : Fin NPROC) (f : Fin NFILE) (ip : Nat)
  | pipeFd (p : Fin NPROC) (f : Fin NFILE)
  | unFd (p : Fin NPROC) (fd : Fin NOFILE)
  | closeHeld (p : Fin NPROC) (f : Fin NFILE)
  | kalloc (p : Fin NPROC) (rf wf : Fin NFILE) (q : Nat)
  | close (p : Fin NPROC) (fd : Fin NOFILE)
  | dup (p : Fin NPROC) (fd : Fin NOFILE)
  | filedup (p : Fin NPROC) (fd : Fin NOFILE)
  | pipeclose (p : Fin NPROC) (q : Nat) (w : Bool)
  | fork (p : Fin NPROC)
  | exitClose (p : Fin NPROC) (fd : Fin NOFILE)
  | exitClear (p : Fin NPROC) (fd : Fin NOFILE)
  | exitEnd (p : Fin NPROC)
  | reap (c : Fin NPROC)

/-- One step. A panic, and a step the calls never take, are refused; a step that fails
the way the code returns `-1` (no free entry, descriptor or page) changes nothing. -/
def ftNext (s : FtSys) : FtCall → Option FtSys
  | .filealloc p =>
    if s.proc p = .live then
      match filealloc s.file with
      | some (f, ft) => some { s with file := ft, held := (p, f) :: s.held }
      | none => some s
    else none
  | .openFd p f ip =>
    if s.proc p = .live ∧ (p, f) ∈ s.held ∧ (s.file f).type = .none then
      match fdalloc (s.ofile p) with
      | some fd => some { s.setFd p fd (some f) with
          file := Function.update s.file f { s.file f with type := .inode ip },
          held := s.held.erase (p, f) }
      | none => some s
    else none
  | .pipeFd p f =>
    if s.proc p = .live ∧ (p, f) ∈ s.held then
      match fdalloc (s.ofile p) with
      | some fd => some { s.setFd p fd (some f) with held := s.held.erase (p, f) }
      | none => some s
    else none
  | .unFd p fd =>
    if s.proc p = .live ∧ s.Counted (p, fd) then
      match s.ofile p fd with
      | some f => some { s.setFd p fd none with held := (p, f) :: s.held }
      | none => none
    else none
  | .closeHeld p f =>
    if s.proc p = .live ∧ (p, f) ∈ s.held then
      match fileclose s.file f with
      | .ok (ft, o) => some ({ s with held := s.held.erase (p, f) }.afterClose p ft o)
      | .error _ => none
    else none
  | .kalloc p rf wf q =>
    if s.proc p = .live ∧ (p, rf) ∈ s.held ∧ (p, wf) ∈ s.held ∧ rf ≠ wf ∧
        (s.file rf).type = .none ∧ (s.file wf).type = .none ∧ s.pipes q = none then
      some { s with
        pipes := Function.update s.pipes q (some Pipe.fresh),
        file := Function.update (Function.update s.file rf { s.file rf with type := .pipe q false })
          wf { s.file wf with type := .pipe q true } }
    else none
  | .close p fd =>
    if s.proc p = .live ∧ s.Counted (p, fd) then
      match s.ofile p fd with
      | some f =>
        match fileclose s.file f with
        | .ok (ft, o) => some ((s.setFd p fd none).afterClose p ft o)
        | .error _ => none
      | none => none
    else none
  | .dup p fd =>
    if s.proc p = .live ∧ s.Counted (p, fd) then
      match s.ofile p fd with
      | some f =>
        match fdalloc (s.ofile p) with
        | some fd' => some { s.setFd p fd' (some f) with dups := (p, fd') :: s.dups }
        | none => some s
      | none => none
    else none
  | .filedup p fd =>
    if s.proc p = .live ∧ (p, fd) ∈ s.dups then
      match s.ofile p fd with
      | some f =>
        match filedup s.file f with
        | .ok ft => some { s with file := ft, dups := s.dups.erase (p, fd) }
        | .error _ => none
      | none => none
    else none
  | .pipeclose p q w =>
    if (p, (q, w)) ∈ s.pending then
      match s.pipes q with
      | some pp => some { s with
          pipes := Function.update s.pipes q (pipecloseFree pp w),
          pending := s.pending.erase (p, (q, w)) }
      | none => none
    else none
  | .fork p =>
    if s.proc p = .live then
      match (List.finRange NPROC).find? fun c => s.proc c = .unused with
      | some c =>
        match forkFiles (s.ofile p) (List.finRange NOFILE) s.file with
        | .ok ft => some { s with
            file := ft, proc := Function.update s.proc c .live,
            ofile := Function.update s.ofile c (s.ofile p) }
        | .error _ => none
      | none => some s
    else none
  | .exitClose p fd =>
    if s.proc p = .live ∧ s.Counted (p, fd) then
      match s.ofile p fd with
      | some f =>
        match fileclose s.file f with
        | .ok (ft, o) => some ({ s with exited := (p, fd) :: s.exited }.afterClose p ft o)
        | .error _ => none
      | none => none
    else none
  | .exitClear p fd =>
    if (p, fd) ∈ s.exited then
      some { s.setFd p fd none with exited := s.exited.erase (p, fd) }
    else none
  | .exitEnd p =>
    if s.proc p = .live ∧ (∀ fd, s.ofile p fd = none) ∧ (∀ x ∈ s.held, x.1 ≠ p) ∧
        (∀ x ∈ s.pending, x.1 ≠ p) then
      some { s with proc := Function.update s.proc p .zombie }
    else none
  | .reap c =>
    if s.proc c = .zombie then some { s with proc := Function.update s.proc c .unused }
    else none

/-- A booting kernel: no entry is referenced, no page is a pipe, no descriptor is open. -/
def FtInit (s : FtSys) : Prop :=
  (∀ f, s.file f = ⟨.none, 0⟩) ∧ (∀ q, s.pipes q = none) ∧ (∀ p fd, s.ofile p fd = none) ∧
    s.held = [] ∧ s.dups = [] ∧ s.exited = [] ∧ s.pending = []

def FtReachable : FtSys → Prop := Reach.Reachable FtInit (Reach.stepOf ftNext)

/-- The ways through `ftNext` that change the state, one constructor each, and `idle`
for those that change nothing. -/
inductive FtStep (s : FtSys) : FtSys → Prop where
  | idle : FtStep s s
  | alloc {p : Fin NPROC} {f : Fin NFILE} {ft : Ftable} : s.proc p = .live →
      filealloc s.file = some (f, ft) → FtStep s { s with file := ft, held := (p, f) :: s.held }
  | openFd {p : Fin NPROC} {f : Fin NFILE} {ip : Nat} {fd : Fin NOFILE} : s.proc p = .live →
      (p, f) ∈ s.held → (s.file f).type = .none → fdalloc (s.ofile p) = some fd →
      FtStep s { s.setFd p fd (some f) with
        file := Function.update s.file f { s.file f with type := .inode ip },
        held := s.held.erase (p, f) }
  | pipeFd {p : Fin NPROC} {f : Fin NFILE} {fd : Fin NOFILE} : s.proc p = .live →
      (p, f) ∈ s.held → fdalloc (s.ofile p) = some fd →
      FtStep s { s.setFd p fd (some f) with held := s.held.erase (p, f) }
  | unFd {p : Fin NPROC} {fd : Fin NOFILE} {f : Fin NFILE} : s.proc p = .live →
      s.Counted (p, fd) → s.ofile p fd = some f →
      FtStep s { s.setFd p fd none with held := (p, f) :: s.held }
  | closeHeld {p : Fin NPROC} {f : Fin NFILE} {ft : Ftable} {o : Option FType} :
      s.proc p = .live → (p, f) ∈ s.held → fileclose s.file f = .ok (ft, o) →
      FtStep s ({ s with held := s.held.erase (p, f) }.afterClose p ft o)
  | kalloc {p : Fin NPROC} {rf wf : Fin NFILE} {q : Nat} : s.proc p = .live →
      (p, rf) ∈ s.held → (p, wf) ∈ s.held → rf ≠ wf → (s.file rf).type = .none →
      (s.file wf).type = .none → s.pipes q = none →
      FtStep s { s with
        pipes := Function.update s.pipes q (some Pipe.fresh),
        file := Function.update (Function.update s.file rf { s.file rf with type := .pipe q false })
          wf { s.file wf with type := .pipe q true } }
  | close {p : Fin NPROC} {fd : Fin NOFILE} {f : Fin NFILE} {ft : Ftable} {o : Option FType} :
      s.proc p = .live → s.Counted (p, fd) → s.ofile p fd = some f →
      fileclose s.file f = .ok (ft, o) → FtStep s ((s.setFd p fd none).afterClose p ft o)
  | dup {p : Fin NPROC} {fd fd' : Fin NOFILE} {f : Fin NFILE} : s.proc p = .live →
      s.Counted (p, fd) → s.ofile p fd = some f → fdalloc (s.ofile p) = some fd' →
      FtStep s { s.setFd p fd' (some f) with dups := (p, fd') :: s.dups }
  | filedup {p : Fin NPROC} {fd : Fin NOFILE} {f : Fin NFILE} {ft : Ftable} :
      s.proc p = .live → (p, fd) ∈ s.dups → s.ofile p fd = some f → filedup s.file f = .ok ft →
      FtStep s { s with file := ft, dups := s.dups.erase (p, fd) }
  | pipeclose {p : Fin NPROC} {q : Nat} {w : Bool} {pp : Pipe} : (p, (q, w)) ∈ s.pending →
      s.pipes q = some pp →
      FtStep s { s with
        pipes := Function.update s.pipes q (pipecloseFree pp w),
        pending := s.pending.erase (p, (q, w)) }
  | fork {p c : Fin NPROC} {ft : Ftable} : s.proc p = .live → s.proc c = .unused →
      forkFiles (s.ofile p) (List.finRange NOFILE) s.file = .ok ft →
      FtStep s { s with
        file := ft, proc := Function.update s.proc c .live,
        ofile := Function.update s.ofile c (s.ofile p) }
  | exitClose {p : Fin NPROC} {fd : Fin NOFILE} {f : Fin NFILE} {ft : Ftable} {o : Option FType} :
      s.proc p = .live → s.Counted (p, fd) → s.ofile p fd = some f →
      fileclose s.file f = .ok (ft, o) →
      FtStep s ({ s with exited := (p, fd) :: s.exited }.afterClose p ft o)
  | exitClear {p : Fin NPROC} {fd : Fin NOFILE} : (p, fd) ∈ s.exited →
      FtStep s { s.setFd p fd none with exited := s.exited.erase (p, fd) }
  | exitEnd {p : Fin NPROC} : s.proc p = .live → (∀ fd, s.ofile p fd = none) →
      FtStep s { s with proc := Function.update s.proc p .zombie }
  | reap {c : Fin NPROC} : s.proc c = .zombie →
      FtStep s { s with proc := Function.update s.proc c .unused }

theorem ftStep_of_ftNext {s s' : FtSys} {e : FtCall} (h : ftNext s e = some s') : FtStep s s' := by
  cases e with
  | filealloc p =>
    simp only [ftNext] at h
    split_ifs at h with hp
    split at h
    · cases h
      exact .alloc hp ‹_›
    · cases h
      exact .idle
  | openFd p f ip =>
    simp only [ftNext] at h
    split_ifs at h with hp
    split at h
    · cases h
      exact .openFd hp.1 hp.2.1 hp.2.2 ‹_›
    · cases h
      exact .idle
  | pipeFd p f =>
    simp only [ftNext] at h
    split_ifs at h with hp
    split at h
    · cases h
      exact .pipeFd hp.1 hp.2 ‹_›
    · cases h
      exact .idle
  | unFd p fd =>
    simp only [ftNext] at h
    split_ifs at h with hp
    split at h
    · cases h
      exact .unFd hp.1 hp.2 ‹_›
    · cases h
  | closeHeld p f =>
    simp only [ftNext] at h
    split_ifs at h with hp
    split at h
    · cases h
      exact .closeHeld hp.1 hp.2 ‹_›
    · cases h
  | kalloc p rf wf q =>
    simp only [ftNext] at h
    split_ifs at h with hp
    cases h
    exact .kalloc hp.1 hp.2.1 hp.2.2.1 hp.2.2.2.1 hp.2.2.2.2.1 hp.2.2.2.2.2.1 hp.2.2.2.2.2.2
  | close p fd =>
    simp only [ftNext] at h
    split_ifs at h with hp
    split at h
    · split at h
      · cases h
        exact .close hp.1 hp.2 ‹_› ‹_›
      · cases h
    · cases h
  | dup p fd =>
    simp only [ftNext] at h
    split_ifs at h with hp
    split at h
    · split at h
      · cases h
        exact .dup hp.1 hp.2 ‹_› ‹_›
      · cases h
        exact .idle
    · cases h
  | filedup p fd =>
    simp only [ftNext] at h
    split_ifs at h with hp
    split at h
    · split at h
      · cases h
        exact .filedup hp.1 hp.2 ‹_› ‹_›
      · cases h
    · cases h
  | pipeclose p q w =>
    simp only [ftNext] at h
    split_ifs at h with hp
    split at h
    · cases h
      exact .pipeclose hp ‹_›
    · cases h
  | fork p =>
    simp only [ftNext] at h
    split_ifs at h with hp
    split at h
    · rename_i c hc
      split at h
      · cases h
        have hu := List.find?_some hc
        simp only [decide_eq_true_eq] at hu
        exact .fork hp hu ‹_›
      · cases h
    · cases h
      exact .idle
  | exitClose p fd =>
    simp only [ftNext] at h
    split_ifs at h with hp
    split at h
    · split at h
      · cases h
        exact .exitClose hp.1 hp.2 ‹_› ‹_›
      · cases h
    · cases h
  | exitClear p fd =>
    simp only [ftNext] at h
    split_ifs at h with hp
    cases h
    exact .exitClear hp
  | exitEnd p =>
    simp only [ftNext] at h
    split_ifs at h with hp
    cases h
    exact .exitEnd hp.1 hp.2.1
  | reap c =>
    simp only [ftNext] at h
    split_ifs at h with hp
    cases h
    exact .reap hp

/-! ## What the code does to the table -/

section code

variable {ft ft' : Ftable} {f : Fin NFILE}

theorem filealloc_some (h : filealloc ft = some (f, ft')) :
    (ft f).ref = 0 ∧ ft' = Function.update ft f { ft f with ref := 1 } := by
  unfold filealloc at h
  split at h
  · rename_i g hg
    cases h
    have hfound := List.find?_some hg
    simp only [decide_eq_true_eq] at hfound
    exact ⟨hfound, rfl⟩
  · cases h

theorem filedup_ok (h : filedup ft f = .ok ft') :
    1 ≤ (ft f).ref ∧ ft' = Function.update ft f { ft f with ref := (ft f).ref + 1 } := by
  unfold filedup at h
  by_cases hr : (ft f).ref < 1
  · rw [if_pos hr] at h
    cases h
  · rw [if_neg hr] at h
    cases h
    exact ⟨by omega, rfl⟩

/-- `fileclose` that returns drops a reference it had; it gives the copy of the entry when
that was the last, and then leaves the entry `FD_NONE`. -/
theorem fileclose_ok {o : Option FType} (h : fileclose ft f = .ok (ft', o)) :
    (1 < (ft f).ref ∧ o = none ∧ ft' = Function.update ft f { ft f with ref := (ft f).ref - 1 }) ∨
    ((ft f).ref = 1 ∧ o = some (ft f).type ∧ ft' = Function.update ft f { type := .none, ref := 0 }) := by
  unfold fileclose at h
  by_cases hr : (ft f).ref < 1
  · rw [if_pos hr] at h
    cases h
  rw [if_neg hr] at h
  by_cases hm : (ft f).ref - 1 > 0
  · rw [if_pos hm] at h
    cases h
    exact .inl ⟨by omega, rfl, rfl⟩
  · rw [if_neg hm] at h
    cases h
    exact .inr ⟨by omega, rfl, rfl⟩

theorem fdalloc_some {ofile : Fin NOFILE → Option (Fin NFILE)} {fd : Fin NOFILE}
    (h : fdalloc ofile = some fd) : ofile fd = none := by
  have hfound := List.find?_some h
  simpa using hfound

/-- `fork`'s loop adds to each entry one reference per descriptor naming it. -/
theorem forkFiles_ok (ofile : Fin NOFILE → Option (Fin NFILE)) :
    ∀ (fds : List (Fin NOFILE)) {ft ft' : Ftable}, forkFiles ofile fds ft = .ok ft' →
      ∀ g, (ft' g).ref = (ft g).ref + fds.countP (fun fd => decide (ofile fd = some g)) ∧
        (ft' g).type = (ft g).type
  | [], ft, ft', h, g => by
    cases h
    simp
  | fd :: fds, ft, ft', h, g => by
    simp only [forkFiles] at h
    split at h
    · rename_i f hf
      -- `filedup` of the entry `fd` names, then the rest of the loop
      cases hd : filedup ft f with
      | error e =>
        rw [hd] at h
        cases h
      | ok ft₁ =>
        rw [hd] at h
        obtain ⟨-, rfl⟩ := filedup_ok hd
        obtain ⟨hr, ht⟩ := forkFiles_ok ofile fds h g
        rw [hr, ht, List.countP_cons]
        by_cases hg : g = f
        · subst hg
          simp [hf]
          omega
        · have hfg : ofile fd ≠ some g := by rw [hf]; simpa using Ne.symm hg
          simp [Function.update_of_ne hg, hfg]
    · rename_i hf
      obtain ⟨hr, ht⟩ := forkFiles_ok ofile fds h g
      rw [hr, ht, List.countP_cons]
      simp [hf]

theorem fileclose_ref_le {o : Option FType} (h : fileclose ft f = .ok (ft', o)) (g : Fin NFILE) :
    (ft' g).ref ≤ (ft g).ref := by
  by_cases hgf : g = f
  · subst hgf
    rcases fileclose_ok h with ⟨-, -, rfl⟩ | ⟨-, -, rfl⟩
    · simp
    · simp
  · rcases fileclose_ok h with ⟨-, -, rfl⟩ | ⟨-, -, rfl⟩
    · rw [Function.update_of_ne hgf]
    · rw [Function.update_of_ne hgf]

/-- `fork`'s loop panics at an entry without references, so it gives none of them one. -/
theorem forkFiles_ref_zero (ofile : Fin NOFILE → Option (Fin NFILE)) :
    ∀ (fds : List (Fin NOFILE)) {ft ft' : Ftable}, forkFiles ofile fds ft = .ok ft' →
      ∀ g, (ft g).ref = 0 → (ft' g).ref = 0
  | [], ft, ft', h, g, h0 => by
    cases h
    exact h0
  | fd :: fds, ft, ft', h, g, h0 => by
    simp only [forkFiles] at h
    split at h
    · rename_i f _
      cases hd : filedup ft f with
      | error e =>
        rw [hd] at h
        cases h
      | ok ft₁ =>
        rw [hd] at h
        obtain ⟨h1, rfl⟩ := filedup_ok hd
        have hgf : g ≠ f := by
          rintro rfl
          omega
        exact forkFiles_ref_zero ofile fds h g (by rw [Function.update_of_ne hgf]; exact h0)
    · exact forkFiles_ref_zero ofile fds h g h0

/-- Setting the type of an entry leaves every count. -/
@[simp] theorem ref_update_type (ft : Ftable) (f : Fin NFILE) (t : FType) (g : Fin NFILE) :
    (Function.update ft f { ft f with type := t } g).ref = (ft g).ref := by
  by_cases hg : g = f
  · subst hg
    simp
  · rw [Function.update_of_ne hg]

/-- So does `pipealloc`'s setting of the types of its two entries. -/
theorem kalloc_ref (ft : Ftable) (rf wf : Fin NFILE) (a b : FType) (g : Fin NFILE) :
    (Function.update (Function.update ft rf { ft rf with type := a }) wf
      { ft wf with type := b } g).ref = (ft g).ref := by
  by_cases hgw : g = wf
  · subst hgw
    simp
  · rw [Function.update_of_ne hgw, ref_update_type]

end code

/-! ## The invariant -/

/-- Whether end `w` of the pipe on a page, if the page is a pipe, is open. -/
def pageEndOpen : Option Pipe → Bool → Bool
  | some pp, w => if w then pp.writeopen else pp.readopen
  | none, _ => false

/-- `pipeclose` closes its own end, and the page is freed only once the other is closed
too. -/
theorem pageEndOpen_pipecloseFree (pp : Pipe) (w v : Bool) :
    pageEndOpen (pipecloseFree pp w) v = (v != w && pageEndOpen (some pp) v) := by
  cases w <;> cases v <;> by_cases hr : pp.readopen <;> by_cases hw : pp.writeopen <;>
    simp [pipecloseFree, pipeclose, pageEndOpen, hr, hw]

namespace FtSys

/-- The counted descriptors naming entry `f`. -/
def slotRefs (s : FtSys) (f : Fin NFILE) : Nat :=
  (Finset.univ.filter fun x : Fin NPROC × Fin NOFILE => s.Counted x ∧ s.ofile x.1 x.2 = some f).card

/-- The entries that are end `w` of the pipe on page `q`. -/
def pipeEnds (s : FtSys) (q : Nat) (w : Bool) : Nat :=
  (Finset.univ.filter fun f => (s.file f).type = .pipe q w).card

/-- Whether end `w` of page `q` is an open end of a pipe. -/
def endOpen (s : FtSys) (q : Nat) (w : Bool) : Bool := pageEndOpen (s.pipes q) w

end FtSys

/-- The descriptors between the two steps of `sys_dup` or of `exit` belong to a running
process, are set, and are marked once; a zombie has no descriptors. -/
structure FdMarks (proc : Fin NPROC → PState) (ofile : Fin NPROC → Fin NOFILE → Option (Fin NFILE))
    (dups exited : List (Fin NPROC × Fin NOFILE)) : Prop where
  marked : ∀ x, x ∈ dups ∨ x ∈ exited → proc x.1 = .live ∧ ofile x.1 x.2 ≠ none
  dups_nodup : dups.Nodup
  exited_nodup : exited.Nodup
  disjoint : ∀ x, x ∈ dups → x ∉ exited
  zombie : ∀ p, proc p = .zombie → ∀ fd, ofile p fd = none

/-- The invariant but for the reference counts: an entry without references is
`FD_NONE`, and an open end of a pipe has one owner, an entry or an owed `pipeclose`,
and a closed end or a free page none. -/
structure FtCore (s : FtSys) : Prop where
  clean : ∀ f, (s.file f).ref = 0 → (s.file f).type = .none
  ends : ∀ q w, s.pipeEnds q w + Holders.count s.pending (q, w) = (s.endOpen q w).toNat
  marks : FdMarks s.proc s.ofile s.dups s.exited

/-- The reference count of each entry is its counted descriptors and the calls' own. -/
structure FtInv (s : FtSys) : Prop extends FtCore s where
  refs : ∀ f, (s.file f).ref = s.slotRefs f + Holders.count s.held f

namespace FtSys

theorem ofile_update_apply (o : Fin NPROC → Fin NOFILE → Option (Fin NFILE)) (p : Fin NPROC)
    (fd : Fin NOFILE) (v : Option (Fin NFILE)) (x : Fin NPROC × Fin NOFILE) :
    Function.update o p (Function.update (o p) fd v) x.1 x.2 = if x = (p, fd) then v else o x.1 x.2 := by
  obtain ⟨q, g⟩ := x
  simp only [Function.update_apply, Prod.mk.injEq]
  by_cases hq : q = p
  · subst hq
    by_cases hg : g = fd <;> simp [hg]
  · simp [hq]

/-- A change of the descriptors, or of which of them count, at slot `x₀` alone changes
the count of each entry by that slot alone. -/
theorem slotRefs_update {s s' : FtSys} (x₀ : Fin NPROC × Fin NOFILE)
    (h : ∀ x, x ≠ x₀ → (s'.Counted x ↔ s.Counted x) ∧ s'.ofile x.1 x.2 = s.ofile x.1 x.2)
    (f : Fin NFILE) :
    s'.slotRefs f + (if s.Counted x₀ ∧ s.ofile x₀.1 x₀.2 = some f then 1 else 0) =
      s.slotRefs f + (if s'.Counted x₀ ∧ s'.ofile x₀.1 x₀.2 = some f then 1 else 0) :=
  @Tally.card_filter_update _ _ _ (fun x => s.Counted x ∧ s.ofile x.1 x.2 = some f)
    (fun x => s'.Counted x ∧ s'.ofile x.1 x.2 = some f) _ _ x₀
    fun x hx => by simp only [(h x hx).1, (h x hx).2]

/-- Slot `x₀`, a counted descriptor naming `f`, stops counting. -/
theorem slotRefs_drop {s' : FtSys} (s : FtSys) (x₀ : Fin NPROC × Fin NOFILE) (f : Fin NFILE)
    (h : ∀ x, x ≠ x₀ → (s'.Counted x ↔ s.Counted x) ∧ s'.ofile x.1 x.2 = s.ofile x.1 x.2)
    (hc : s.Counted x₀) (ho : s.ofile x₀.1 x₀.2 = some f)
    (hn : ∀ g, ¬ (s'.Counted x₀ ∧ s'.ofile x₀.1 x₀.2 = some g)) (g : Fin NFILE) :
    s.slotRefs g = s'.slotRefs g + if g = f then 1 else 0 := by
  have hu := slotRefs_update x₀ h g
  rw [if_neg (hn g)] at hu
  by_cases hg : g = f
  · subst hg
    rw [if_pos ⟨hc, ho⟩] at hu
    rw [if_pos rfl]
    omega
  · have hne : ¬ (s.Counted x₀ ∧ s.ofile x₀.1 x₀.2 = some g) :=
      fun h' => hg (Option.some.inj (h'.2.symm.trans ho))
    rw [if_neg hne] at hu
    rw [if_neg hg]
    omega

/-- Slot `x₀` starts counting as a descriptor naming `f`. -/
theorem slotRefs_add {s' : FtSys} (s : FtSys) (x₀ : Fin NPROC × Fin NOFILE) (f : Fin NFILE)
    (h : ∀ x, x ≠ x₀ → (s'.Counted x ↔ s.Counted x) ∧ s'.ofile x.1 x.2 = s.ofile x.1 x.2)
    (hn : ∀ g, ¬ (s.Counted x₀ ∧ s.ofile x₀.1 x₀.2 = some g))
    (hc : s'.Counted x₀) (ho : s'.ofile x₀.1 x₀.2 = some f) (g : Fin NFILE) :
    s'.slotRefs g = s.slotRefs g + if g = f then 1 else 0 :=
  slotRefs_drop s' x₀ f (fun x hx => ⟨(h x hx).1.symm, (h x hx).2.symm⟩) hc ho hn g

theorem slotRefs_congr {s s' : FtSys} {f : Fin NFILE}
    (h : ∀ x, s'.Counted x ∧ s'.ofile x.1 x.2 = some f ↔ s.Counted x ∧ s.ofile x.1 x.2 = some f) :
    s'.slotRefs f = s.slotRefs f := by
  simp only [slotRefs, h]

/-- A change of one entry's type changes the count of each pipe end by that entry alone. -/
theorem pipeEnds_update {s s' : FtSys} (f₀ : Fin NFILE)
    (h : ∀ f, f ≠ f₀ → (s'.file f).type = (s.file f).type) (q : Nat) (w : Bool) :
    s'.pipeEnds q w + (if (s.file f₀).type = .pipe q w then 1 else 0) =
      s.pipeEnds q w + (if (s'.file f₀).type = .pipe q w then 1 else 0) :=
  @Tally.card_filter_update _ _ _ (fun f => (s.file f).type = .pipe q w)
    (fun f => (s'.file f).type = .pipe q w) _ _ f₀ fun f hf => by simp only [h f hf]

theorem pipeEnds_congr {s s' : FtSys} (h : ∀ f, (s'.file f).type = (s.file f).type) (q : Nat)
    (w : Bool) : s'.pipeEnds q w = s.pipeEnds q w := by
  simp only [pipeEnds, h]

end FtSys

namespace FdMarks

variable {proc : Fin NPROC → PState} {ofile : Fin NPROC → Fin NOFILE → Option (Fin NFILE)}
  {dups exited : List (Fin NPROC × Fin NOFILE)}

/-- A running process sets a descriptor, or clears one no call has marked. -/
theorem setFd (hm : FdMarks proc ofile dups exited) {p : Fin NPROC} {fd : Fin NOFILE}
    {v : Option (Fin NFILE)} (hp : proc p = .live)
    (hx : v = none → (p, fd) ∉ dups ∧ (p, fd) ∉ exited) :
    FdMarks proc (Function.update ofile p (Function.update (ofile p) fd v)) dups exited := by
  refine ⟨fun x hxm => ?_, hm.dups_nodup, hm.exited_nodup, hm.disjoint, fun p' hz fd' => ?_⟩
  · obtain ⟨hl, hne⟩ := hm.marked x hxm
    refine ⟨hl, ?_⟩
    rw [FtSys.ofile_update_apply]
    split_ifs with he
    · rintro rfl
      obtain ⟨hd, he'⟩ := hx rfl
      rcases hxm with hxm | hxm
      · exact hd (he ▸ hxm)
      · exact he' (he ▸ hxm)
    · exact hne
  · have hne : p' ≠ p := by
      rintro rfl
      rw [hp] at hz
      cases hz
    rw [Function.update_of_ne hne]
    exact hm.zombie p' hz fd'

/-- `sys_dup` fills a free descriptor of a running process and marks it. -/
theorem dup (hm : FdMarks proc ofile dups exited) {p : Fin NPROC} {fd : Fin NOFILE}
    (hp : proc p = .live) (hfree : ofile p fd = none) (f : Fin NFILE) :
    FdMarks proc (Function.update ofile p (Function.update (ofile p) fd (some f)))
      ((p, fd) :: dups) exited := by
  have hset : FdMarks proc (Function.update ofile p (Function.update (ofile p) fd (some f)))
      dups exited := hm.setFd hp nofun
  have hnd : (p, fd) ∉ dups := fun hd => (hm.marked _ (.inl hd)).2 hfree
  have hne : (p, fd) ∉ exited := fun he => (hm.marked _ (.inr he)).2 hfree
  refine ⟨fun x hxm => ?_, List.nodup_cons.mpr ⟨hnd, hm.dups_nodup⟩, hm.exited_nodup,
    fun x hx => ?_, hset.zombie⟩
  · rcases hxm with hxm | hxm
    · rcases List.mem_cons.mp hxm with rfl | hxm
      · refine ⟨hp, ?_⟩
        rw [FtSys.ofile_update_apply, if_pos rfl]
        exact Option.some_ne_none f
      · exact hset.marked x (.inl hxm)
    · exact hset.marked x (.inr hxm)
  · rcases List.mem_cons.mp hx with rfl | hx
    · exact hne
    · exact hm.disjoint x hx

/-- `filedup` after `sys_dup` unmarks the descriptor. -/
theorem filedup (hm : FdMarks proc ofile dups exited) (x : Fin NPROC × Fin NOFILE) :
    FdMarks proc ofile (dups.erase x) exited :=
  ⟨fun y hy => hm.marked y (hy.imp_left List.mem_of_mem_erase), hm.dups_nodup.erase x,
    hm.exited_nodup, fun y hy => hm.disjoint y (List.mem_of_mem_erase hy), hm.zombie⟩

/-- `exit` marks a descriptor it has closed. -/
theorem exitClose (hm : FdMarks proc ofile dups exited) {p : Fin NPROC} {fd : Fin NOFILE}
    (hp : proc p = .live) (hset : ofile p fd ≠ none) (hx : (p, fd) ∉ dups ∧ (p, fd) ∉ exited) :
    FdMarks proc ofile dups ((p, fd) :: exited) := by
  refine ⟨fun y hy => ?_, hm.dups_nodup, List.nodup_cons.mpr ⟨hx.2, hm.exited_nodup⟩,
    fun y hy he => ?_, hm.zombie⟩
  · rcases hy with hy | hy
    · exact hm.marked y (.inl hy)
    · rcases List.mem_cons.mp hy with rfl | hy
      · exact ⟨hp, hset⟩
      · exact hm.marked y (.inr hy)
  · rcases List.mem_cons.mp he with rfl | he
    · exact hx.1 hy
    · exact hm.disjoint y hy he

/-- `exit` clears a descriptor it has closed and unmarks it. -/
theorem exitClear (hm : FdMarks proc ofile dups exited) {p : Fin NPROC} {fd : Fin NOFILE}
    (hx : (p, fd) ∈ exited) :
    FdMarks proc (Function.update ofile p (Function.update (ofile p) fd none)) dups
      (exited.erase (p, fd)) := by
  have hp := (hm.marked _ (.inr hx)).1
  refine ⟨fun y hy => ?_, hm.dups_nodup, hm.exited_nodup.erase _,
    fun y hy he => hm.disjoint y hy (List.mem_of_mem_erase he), fun p' hz fd' => ?_⟩
  · -- the slot cleared is marked no more: the other marks keep their descriptors
    have hne : y ≠ (p, fd) := by
      rintro rfl
      rcases hy with hy | hy
      · exact hm.disjoint _ hy hx
      · exact List.Nodup.not_mem_erase hm.exited_nodup hy
    obtain ⟨hl, hs⟩ := hm.marked y (hy.imp_right List.mem_of_mem_erase)
    rw [FtSys.ofile_update_apply, if_neg hne]
    exact ⟨hl, hs⟩
  · have hne : p' ≠ p := by
      rintro rfl
      rw [hp] at hz
      cases hz
    rw [Function.update_of_ne hne]
    exact hm.zombie p' hz fd'

/-- `fork` gives an `UNUSED` slot the descriptors of a running parent. -/
theorem fork (hm : FdMarks proc ofile dups exited) {c : Fin NPROC} (hc : proc c = .unused)
    (p : Fin NPROC) :
    FdMarks (Function.update proc c .live) (Function.update ofile c (ofile p)) dups exited := by
  have hmark : ∀ x, x ∈ dups ∨ x ∈ exited → x.1 ≠ c := by
    rintro x hx rfl
    have := (hm.marked x hx).1
    rw [hc] at this
    cases this
  refine ⟨fun x hx => ?_, hm.dups_nodup, hm.exited_nodup, hm.disjoint, fun p' hz fd => ?_⟩
  · rw [Function.update_of_ne (hmark x hx), Function.update_of_ne (hmark x hx)]
    exact hm.marked x hx
  · have hne : p' ≠ c := by
      rintro rfl
      rw [Function.update_self] at hz
      cases hz
    rw [Function.update_of_ne hne] at hz ⊢
    exact hm.zombie p' hz fd

/-- `exit` makes a zombie of a process whose descriptors are all clear. -/
theorem exitEnd (hm : FdMarks proc ofile dups exited) {p : Fin NPROC}
    (hnone : ∀ fd, ofile p fd = none) :
    FdMarks (Function.update proc p .zombie) ofile dups exited := by
  refine ⟨fun x hx => ?_, hm.dups_nodup, hm.exited_nodup, hm.disjoint, fun p' hz fd => ?_⟩
  · obtain ⟨hl, hs⟩ := hm.marked x hx
    have hne : x.1 ≠ p := fun h => hs (h ▸ hnone x.2)
    rw [Function.update_of_ne hne]
    exact ⟨hl, hs⟩
  · by_cases hpp : p' = p
    · subst hpp
      exact hnone fd
    · rw [Function.update_of_ne hpp] at hz
      exact hm.zombie p' hz fd

/-- `wait` frees a zombie's slot. -/
theorem reap (hm : FdMarks proc ofile dups exited) {c : Fin NPROC} (hz : proc c = .zombie) :
    FdMarks (Function.update proc c .unused) ofile dups exited := by
  refine ⟨fun x hx => ?_, hm.dups_nodup, hm.exited_nodup, hm.disjoint, fun p' hz' fd => ?_⟩
  · obtain ⟨hl, hs⟩ := hm.marked x hx
    have hne : x.1 ≠ c := by
      intro h
      rw [h, hz] at hl
      cases hl
    rw [Function.update_of_ne hne]
    exact ⟨hl, hs⟩
  · have hne : p' ≠ c := by
      rintro rfl
      rw [Function.update_self] at hz'
      cases hz'
    rw [Function.update_of_ne hne] at hz'
    exact hm.zombie p' hz' fd

end FdMarks

namespace FtSys

@[simp] theorem setFd_ofile_self (s : FtSys) (p : Fin NPROC) (fd : Fin NOFILE)
    (v : Option (Fin NFILE)) : (s.setFd p fd v).ofile p fd = v := by
  simp [setFd]

/-- Setting a descriptor changes no other slot, and which slots count not at all. -/
theorem setFd_agree (s : FtSys) (p : Fin NPROC) (fd : Fin NOFILE) (v : Option (Fin NFILE))
    (x : Fin NPROC × Fin NOFILE) (hx : x ≠ (p, fd)) :
    ((s.setFd p fd v).Counted x ↔ s.Counted x) ∧ (s.setFd p fd v).ofile x.1 x.2 = s.ofile x.1 x.2 := by
  refine ⟨Iff.rfl, ?_⟩
  show Function.update s.ofile p (Function.update (s.ofile p) fd v) x.1 x.2 = _
  rw [ofile_update_apply, if_neg hx]

/-- A change of the type of entry `f₀` between kinds other than pipes counts no pipe end
more or less. -/
theorem pipeEnds_retype {s s' : FtSys} (f₀ : Fin NFILE)
    (h : ∀ f, f ≠ f₀ → (s'.file f).type = (s.file f).type)
    (hs : ∀ q w, (s.file f₀).type ≠ .pipe q w) (hs' : ∀ q w, (s'.file f₀).type ≠ .pipe q w)
    (q : Nat) (w : Bool) : s'.pipeEnds q w = s.pipeEnds q w := by
  have hu := pipeEnds_update f₀ h q w
  rw [if_neg (hs q w), if_neg (hs' q w)] at hu
  omega

/-- Slot `x₀` counts for no entry before and after. -/
theorem slotRefs_same {s' : FtSys} (s : FtSys) (x₀ : Fin NPROC × Fin NOFILE)
    (h : ∀ x, x ≠ x₀ → (s'.Counted x ↔ s.Counted x) ∧ s'.ofile x.1 x.2 = s.ofile x.1 x.2)
    (hn : ∀ g, ¬ (s.Counted x₀ ∧ s.ofile x₀.1 x₀.2 = some g))
    (hn' : ∀ g, ¬ (s'.Counted x₀ ∧ s'.ofile x₀.1 x₀.2 = some g)) (g : Fin NFILE) :
    s'.slotRefs g = s.slotRefs g := by
  have hu := slotRefs_update x₀ h g
  rw [if_neg (hn g), if_neg (hn' g)] at hu
  omega

/-- Row `c`, none of whose slots counted, starts counting: each entry gains the slots of
the row naming it. -/
theorem slotRefs_row (s s' : FtSys) (c : Fin NPROC)
    (h : ∀ x, x.1 ≠ c → (s'.Counted x ↔ s.Counted x) ∧ s'.ofile x.1 x.2 = s.ofile x.1 x.2)
    (hn : ∀ fd, ¬ s.Counted (c, fd)) (hc : ∀ fd, s'.Counted (c, fd)) (g : Fin NFILE) :
    s'.slotRefs g =
      s.slotRefs g + (List.finRange NOFILE).countP fun fd => decide (s'.ofile c fd = some g) := by
  unfold slotRefs
  rw [@Tally.card_filter_row _ _ _ _ _ (fun x => s.Counted x ∧ s.ofile x.1 x.2 = some g)
    (fun x => s'.Counted x ∧ s'.ofile x.1 x.2 = some g) _ _ c
    (fun x hx => by simp only [(h x hx).1, (h x hx).2]) (fun fd h' => hn fd h'.1)]
  rw [← Tally.card_filter_fin]
  simp only [hc, true_and]

/-- The type of entry `f₀`, once `FD_NONE`, becomes another. -/
theorem pipeEnds_of_none (s s' : FtSys) (f₀ : Fin NFILE)
    (h : ∀ f, f ≠ f₀ → (s'.file f).type = (s.file f).type) (hs : (s.file f₀).type = .none)
    (q : Nat) (w : Bool) :
    s'.pipeEnds q w = s.pipeEnds q w + if (s'.file f₀).type = .pipe q w then 1 else 0 := by
  have hu := pipeEnds_update f₀ h q w
  rw [if_neg (by rw [hs]; exact nofun)] at hu
  omega

theorem afterClose_not_pipe (s : FtSys) (p : Fin NPROC) (ft : Ftable) {o : Option FType}
    (h : ∀ q w, o ≠ some (.pipe q w)) : s.afterClose p ft o = { s with file := ft } := by
  rcases o with _ | _ | ⟨q, w⟩ | ip
  · rfl
  · rfl
  · exact absurd rfl (h q w)
  · rfl

@[simp] theorem afterClose_file (s : FtSys) (p : Fin NPROC) (ft : Ftable) (o : Option FType) :
    (s.afterClose p ft o).file = ft := by
  rcases o with _ | _ | ⟨q, w⟩ | ip <;> rfl

@[simp] theorem afterClose_pipes (s : FtSys) (p : Fin NPROC) (ft : Ftable) (o : Option FType) :
    (s.afterClose p ft o).pipes = s.pipes := by
  rcases o with _ | _ | ⟨q, w⟩ | ip <;> rfl

/-- No counted descriptor names an entry whose count of them is zero. -/
theorem slotRefs_eq_zero {s : FtSys} {f : Fin NFILE} (h : s.slotRefs f = 0) (x : Fin NPROC × Fin NOFILE)
    (hc : s.Counted x) : s.ofile x.1 x.2 ≠ some f := by
  intro ho
  unfold slotRefs at h
  rw [Finset.card_eq_zero, Finset.filter_eq_empty_iff] at h
  exact h (by simp) ⟨hc, ho⟩

end FtSys

@[simp] theorem type_update_ref (ft : Ftable) (f : Fin NFILE) (r : Nat) (g : Fin NFILE) :
    (Function.update ft f { ft f with ref := r } g).type = (ft g).type := by
  by_cases hg : g = f
  · subst hg
    simp
  · simp [Function.update_of_ne hg]

namespace FtInv

variable {s : FtSys} (hi : FtInv s)
include hi

/-- An entry a call holds has a reference. -/
theorem ref_pos_of_held {p : Fin NPROC} {f : Fin NFILE} (h : (p, f) ∈ s.held) :
    0 < (s.file f).ref := by
  have := Holders.count_pos h
  rw [hi.refs f]
  omega

/-- A free descriptor is marked by no call. -/
theorem unmarked_of_free {p : Fin NPROC} {fd : Fin NOFILE} (h : s.ofile p fd = none) :
    (p, fd) ∉ s.dups ∧ (p, fd) ∉ s.exited :=
  ⟨fun hd => (hi.marks.marked _ (.inl hd)).2 h, fun he => (hi.marks.marked _ (.inr he)).2 h⟩

theorem alloc {p : Fin NPROC} {f : Fin NFILE} {ft : Ftable} (hf : filealloc s.file = some (f, ft)) :
    FtInv { s with file := ft, held := (p, f) :: s.held } := by
  obtain ⟨h0, rfl⟩ := filealloc_some hf
  refine ⟨⟨fun g hg => ?_, fun q w => ?_, hi.marks⟩, fun g => ?_⟩
  · -- only `f` changes, and it gets a reference
    by_cases hgf : g = f
    · subst hgf
      simp at hg
    · simp only [Function.update_of_ne hgf] at hg ⊢
      exact hi.clean g hg
  · rw [FtSys.pipeEnds_congr fun g => type_update_ref s.file f 1 g]
    exact hi.ends q w
  · show (Function.update s.file f _ g).ref = s.slotRefs g + Holders.count ((p, f) :: s.held) g
    rw [Holders.count_cons]
    by_cases hgf : g = f
    · subst hgf
      have := hi.refs g
      simp only [Function.update_self, if_true]
      omega
    · rw [Function.update_of_ne hgf, if_neg (Ne.symm hgf), hi.refs g, Nat.add_zero]

/-- A call places an entry it holds in a free descriptor of its own. -/
theorem place {p : Fin NPROC} {f : Fin NFILE} {fd : Fin NOFILE} (hp : s.proc p = .live)
    (hh : (p, f) ∈ s.held) (hfd : fdalloc (s.ofile p) = some fd) (g : Fin NFILE) :
    (s.setFd p fd (some f)).slotRefs g + Holders.count (s.held.erase (p, f)) g =
      s.slotRefs g + Holders.count s.held g := by
  have hfree := fdalloc_some hfd
  have hc : s.Counted (p, fd) := ⟨by rw [hp]; exact nofun, hi.unmarked_of_free hfree⟩
  have hs := FtSys.slotRefs_add s (p, fd) f (FtSys.setFd_agree s p fd (some f))
    (fun g h => by rw [hfree] at h; cases h.2) hc (FtSys.setFd_ofile_self s p fd _) g
  have hh := Holders.count_erase_add hh g
  omega

theorem openFd {p : Fin NPROC} {f : Fin NFILE} {ip : Nat} {fd : Fin NOFILE}
    (hp : s.proc p = .live) (hh : (p, f) ∈ s.held) (ht : (s.file f).type = .none)
    (hfd : fdalloc (s.ofile p) = some fd) :
    FtInv { s.setFd p fd (some f) with
      file := Function.update s.file f { s.file f with type := .inode ip },
      held := s.held.erase (p, f) } := by
  have hpos := hi.ref_pos_of_held hh
  have href := ref_update_type s.file f (.inode ip)
  refine ⟨⟨fun g hg => ?_, fun q w => ?_, hi.marks.setFd hp nofun⟩, fun g => ?_⟩
  · -- `f` keeps the reference of the call
    have hg' : (s.file g).ref = 0 := (href g).symm.trans hg
    have hgf : g ≠ f := by
      rintro rfl
      omega
    simp only [Function.update_of_ne hgf]
    exact hi.clean g hg'
  · rw [FtSys.pipeEnds_retype f]
    · exact hi.ends q w
    · intro g hg
      simp [Function.update_of_ne hg]
    · intro q w
      rw [ht]
      exact nofun
    · intro q w
      simp
  · show (Function.update s.file f _ g).ref =
      (s.setFd p fd (some f)).slotRefs g + Holders.count (s.held.erase (p, f)) g
    rw [href g, hi.place hp hh hfd g, hi.refs g]

theorem pipeFd {p : Fin NPROC} {f : Fin NFILE} {fd : Fin NOFILE} (hp : s.proc p = .live)
    (hh : (p, f) ∈ s.held) (hfd : fdalloc (s.ofile p) = some fd) :
    FtInv { s.setFd p fd (some f) with held := s.held.erase (p, f) } := by
  refine ⟨⟨hi.clean, hi.ends, hi.marks.setFd hp nofun⟩, fun g => ?_⟩
  show (s.file g).ref = (s.setFd p fd (some f)).slotRefs g + Holders.count (s.held.erase (p, f)) g
  rw [hi.place hp hh hfd g, hi.refs g]

/-- The first step of `sys_close` (and of `sys_pipe`'s error path) hands the reference of a
descriptor to the call. -/
theorem unFd {p : Fin NPROC} {fd : Fin NOFILE} {f : Fin NFILE} (hp : s.proc p = .live)
    (hc : s.Counted (p, fd)) (hf : s.ofile p fd = some f) :
    FtInv { s.setFd p fd none with held := (p, f) :: s.held } := by
  refine ⟨⟨hi.clean, hi.ends, hi.marks.setFd hp fun _ => hc.2⟩, fun g => ?_⟩
  show (s.file g).ref = (s.setFd p fd none).slotRefs g + Holders.count ((p, f) :: s.held) g
  have hs := FtSys.slotRefs_drop s (p, fd) f (FtSys.setFd_agree s p fd none) hc hf
    (fun g h => by rw [FtSys.setFd_ofile_self] at h; cases h.2) g
  rw [Holders.count_cons, hi.refs g, hs]
  by_cases hgf : g = f
  · subst hgf
    simp only [if_true]
    omega
  · rw [if_neg hgf, if_neg (Ne.symm hgf), Nat.add_zero, Nat.add_zero]

/-- `pipealloc` makes the two entries it holds the ends of a pipe on a new page. -/
theorem kalloc {p : Fin NPROC} {rf wf : Fin NFILE} {q : Nat} (hr : (p, rf) ∈ s.held)
    (hw : (p, wf) ∈ s.held) (hne : rf ≠ wf) (htr : (s.file rf).type = .none)
    (htw : (s.file wf).type = .none) (hq : s.pipes q = none) :
    FtInv { s with
      pipes := Function.update s.pipes q (some Pipe.fresh),
      file := Function.update (Function.update s.file rf { s.file rf with type := .pipe q false })
        wf { s.file wf with type := .pipe q true } } := by
  let s₁ : FtSys := { s with
    file := Function.update s.file rf { s.file rf with type := .pipe q false } }
  have href := kalloc_ref s.file rf wf (.pipe q false) (.pipe q true)
  have hpr := hi.ref_pos_of_held hr
  have hpw := hi.ref_pos_of_held hw
  refine ⟨⟨fun g hg => ?_, fun q' w' => ?_, hi.marks⟩, fun g => ?_⟩
  · -- the two entries are held, so those without references are others
    rw [href g] at hg
    have hgr : g ≠ rf := by
      rintro rfl
      omega
    have hgw : g ≠ wf := by
      rintro rfl
      omega
    simp only [Function.update_of_ne hgw, Function.update_of_ne hgr]
    exact hi.clean g hg
  · -- each end of the page gains its entry; the page was no pipe, so it had no owner
    have h₁ := FtSys.pipeEnds_of_none s s₁ rf (fun g hg => by simp [s₁, Function.update_of_ne hg])
      htr q' w'
    simp only [s₁, Function.update_self] at h₁
    rw [FtSys.pipeEnds_of_none s₁ _ wf, h₁]
    · have he := hi.ends q' w'
      show _ + _ + _ + Holders.count s.pending (q', w') =
        (pageEndOpen (Function.update s.pipes q (some Pipe.fresh) q') w').toNat
      unfold FtSys.endOpen at he
      by_cases hqq : q' = q
      · subst hqq
        rw [hq] at he
        rw [Function.update_self]
        cases w' <;> simp [Pipe.fresh, pageEndOpen] at he ⊢ <;> omega
      · rw [Function.update_of_ne hqq]
        simp only [Function.update_self, FType.pipe.injEq, Ne.symm hqq, false_and, if_false,
          Nat.add_zero]
        exact he
    · intro g hg
      simp [s₁, Function.update_of_ne hg]
    · simp [s₁, Function.update_of_ne (Ne.symm hne), htw]
  · show (Function.update (Function.update s.file rf _) wf _ g).ref =
      s.slotRefs g + Holders.count s.held g
    rw [href g, hi.refs g]

/-- `sys_dup` fills a free descriptor, marked until its `filedup`. -/
theorem dup {p : Fin NPROC} {fd' : Fin NOFILE} (f : Fin NFILE) (hp : s.proc p = .live)
    (hfd : fdalloc (s.ofile p) = some fd') :
    FtInv { s.setFd p fd' (some f) with dups := (p, fd') :: s.dups } := by
  have hfree := fdalloc_some hfd
  refine ⟨⟨hi.clean, hi.ends, hi.marks.dup hp hfree f⟩, fun g => ?_⟩
  show (s.file g).ref = FtSys.slotRefs { s.setFd p fd' (some f) with dups := (p, fd') :: s.dups } g +
    Holders.count s.held g
  rw [FtSys.slotRefs_same s (p, fd')]
  · exact hi.refs g
  · intro x hx
    refine ⟨?_, (FtSys.setFd_agree s p fd' _ x hx).2⟩
    simp only [FtSys.Counted, FtSys.setFd, List.mem_cons, hx, false_or]
  · intro g h
    rw [hfree] at h
    cases h.2
  · intro g h
    exact h.1.2.1 List.mem_cons_self

/-- `filedup` after `sys_dup` takes the reference the filled descriptor counts for. -/
theorem filedup {p : Fin NPROC} {fd : Fin NOFILE} {f : Fin NFILE} {ft : Ftable}
    (hp : s.proc p = .live) (hd : (p, fd) ∈ s.dups) (hf : s.ofile p fd = some f)
    (hdup : filedup s.file f = .ok ft) :
    FtInv { s with file := ft, dups := s.dups.erase (p, fd) } := by
  obtain ⟨h1, rfl⟩ := filedup_ok hdup
  refine ⟨⟨fun g hg => ?_, fun q w => ?_, hi.marks.filedup (p, fd)⟩, fun g => ?_⟩
  · by_cases hgf : g = f
    · subst hgf
      simp at hg
    · simp only [Function.update_of_ne hgf] at hg ⊢
      exact hi.clean g hg
  · rw [FtSys.pipeEnds_congr fun g => type_update_ref s.file f _ g]
    exact hi.ends q w
  · show (Function.update s.file f _ g).ref =
      FtSys.slotRefs { s with file := _, dups := s.dups.erase (p, fd) } g + Holders.count s.held g
    rw [FtSys.slotRefs_add s (p, fd) f]
    · by_cases hgf : g = f
      · subst hgf
        simp only [Function.update_self, if_true, hi.refs g]
        omega
      · rw [Function.update_of_ne hgf, if_neg hgf, hi.refs g, Nat.add_zero]
    · intro x hx
      refine ⟨?_, rfl⟩
      simp only [FtSys.Counted, List.mem_erase_of_ne hx]
    · intro g h
      exact h.1.2.1 hd
    · exact ⟨by rw [hp]; exact fun h => PState.noConfusion h, hi.marks.dups_nodup.not_mem_erase,
        hi.marks.disjoint _ hd⟩
    · exact hf

/-- `pipeclose` closes the end it is owed for, and frees the page with the last end. -/
theorem pipeclose {p : Fin NPROC} {q : Nat} {w : Bool} {pp : Pipe}
    (hm : (p, (q, w)) ∈ s.pending) (hq : s.pipes q = some pp) :
    FtInv { s with
      pipes := Function.update s.pipes q (pipecloseFree pp w),
      pending := s.pending.erase (p, (q, w)) } := by
  refine ⟨⟨hi.clean, fun q' w' => ?_, hi.marks⟩, hi.refs⟩
  have hc := Holders.count_erase_add hm (q', w')
  have he := hi.ends q' w'
  unfold FtSys.endOpen at he
  show s.pipeEnds q' w' + Holders.count (s.pending.erase (p, (q, w))) (q', w') =
    (pageEndOpen (Function.update s.pipes q (pipecloseFree pp w) q') w').toNat
  by_cases hqq : q' = q
  · subst hqq
    rw [hq] at he
    rw [Function.update_self, pageEndOpen_pipecloseFree]
    by_cases hww : w' = w
    · -- the end owed the call had it as its one owner
      subst hww
      have hpos := Holders.count_pos hm
      have hle := Bool.toNat_le (pageEndOpen (some pp) w')
      rw [if_pos rfl] at hc
      simp only [bne_self_eq_false, Bool.false_and, Bool.toNat_false]
      omega
    · have hb : (w' != w) = true := bne_iff_ne.mpr hww
      rw [if_neg (by simp [hww])] at hc
      rw [hb, Bool.true_and]
      omega
  · rw [Function.update_of_ne hqq]
    rw [if_neg (by simp [hqq])] at hc
    omega

/-- `fork` gives the child the parent's descriptors, and their entries one reference
each. -/
theorem fork {p c : Fin NPROC} {ft : Ftable} (hc : s.proc c = .unused)
    (hf : forkFiles (s.ofile p) (List.finRange NOFILE) s.file = .ok ft) :
    FtInv { s with
      file := ft, proc := Function.update s.proc c .live,
      ofile := Function.update s.ofile c (s.ofile p) } := by
  have hft := forkFiles_ok (s.ofile p) (List.finRange NOFILE) hf
  refine ⟨⟨fun g hg => ?_, fun q w => ?_, hi.marks.fork hc p⟩, fun g => ?_⟩
  · change (ft g).ref = 0 at hg
    have h0 : (s.file g).ref = 0 := by
      have := (hft g).1
      omega
    rw [(hft g).2]
    exact hi.clean g h0
  · rw [FtSys.pipeEnds_congr fun g => (hft g).2]
    exact hi.ends q w
  · show (ft g).ref = FtSys.slotRefs { s with file := ft, proc := _, ofile := _ } g +
      Holders.count s.held g
    rw [FtSys.slotRefs_row s _ c, (hft g).1, hi.refs g]
    · simp only [Function.update_self]
      omega
    · -- the other rows keep their slots and whether they count
      intro x hx
      simp only [FtSys.Counted, Function.update_of_ne hx, and_self]
    · intro fd h
      exact h.1 hc
    · -- the child's slots are marked by no call: marks belong to running processes
      intro fd
      have hmk : (c, fd) ∈ s.dups ∨ (c, fd) ∈ s.exited → False := by
        intro hm
        have := (hi.marks.marked _ hm).1
        rw [hc] at this
        cases this
      exact ⟨by simp, fun hd => hmk (.inl hd), fun he => hmk (.inr he)⟩

/-- `exit` makes a zombie of a process with no descriptors left. -/
theorem exitEnd {p : Fin NPROC} (hnone : ∀ fd, s.ofile p fd = none) :
    FtInv { s with proc := Function.update s.proc p .zombie } := by
  refine ⟨⟨hi.clean, hi.ends, hi.marks.exitEnd hnone⟩, fun g => ?_⟩
  rw [FtSys.slotRefs_congr fun x => ?_]
  · exact hi.refs g
  · by_cases hx : x.1 = p
    · -- the zombie's slots name nothing
      have hn : s.ofile x.1 x.2 = none := hx ▸ hnone x.2
      simp only [hn, reduceCtorEq, and_false]
    · simp only [FtSys.Counted, Function.update_of_ne hx]

/-- `wait` frees a zombie's slot, whose descriptors are clear. -/
theorem reap {c : Fin NPROC} (hz : s.proc c = .zombie) :
    FtInv { s with proc := Function.update s.proc c .unused } := by
  refine ⟨⟨hi.clean, hi.ends, hi.marks.reap hz⟩, fun g => ?_⟩
  rw [FtSys.slotRefs_congr fun x => ?_]
  · exact hi.refs g
  · by_cases hx : x.1 = c
    · have hn : s.ofile x.1 x.2 = none := hx ▸ hi.marks.zombie c hz x.2
      simp only [hn, reduceCtorEq, and_false]
    · simp only [FtSys.Counted, Function.update_of_ne hx]

/-- `exit` clears a descriptor whose reference it has dropped. -/
theorem exitClear {p : Fin NPROC} {fd : Fin NOFILE} (hx : (p, fd) ∈ s.exited) :
    FtInv { s.setFd p fd none with exited := s.exited.erase (p, fd) } := by
  refine ⟨⟨hi.clean, hi.ends, hi.marks.exitClear hx⟩, fun g => ?_⟩
  show (s.file g).ref =
    FtSys.slotRefs { s.setFd p fd none with exited := s.exited.erase (p, fd) } g +
      Holders.count s.held g
  rw [FtSys.slotRefs_same s (p, fd)]
  · exact hi.refs g
  · intro x hne
    refine ⟨?_, (FtSys.setFd_agree s p fd none x hne).2⟩
    simp only [FtSys.Counted, FtSys.setFd, List.mem_erase_of_ne hne]
  · intro g h
    exact h.1.2.2 hx
  · intro g h
    simp only [FtSys.setFd_ofile_self] at h
    cases h.2

end FtInv

/-- The critical section of `fileclose`, from a state that counts the reference it drops
nowhere else. When that was the last reference the entry is cleared, and a pipe end in
the copy passes from the entry to the `pipeclose` owed for it. -/
theorem FtCore.afterClose {s : FtSys} (hc : FtCore s) {f : Fin NFILE}
    (href : ∀ g, (s.file g).ref = s.slotRefs g + Holders.count s.held g + if g = f then 1 else 0)
    (p : Fin NPROC) {ft : Ftable} {o : Option FType} (h : fileclose s.file f = .ok (ft, o)) :
    FtInv (s.afterClose p ft o) := by
  rcases fileclose_ok h with ⟨hmore, rfl, rfl⟩ | ⟨hlast, rfl, rfl⟩
  · -- a reference remains: only the count of `f` changes
    refine ⟨⟨fun g hg => ?_, fun q w => ?_, hc.marks⟩, fun g => ?_⟩
    · change (Function.update s.file f _ g).ref = 0 at hg
      show (Function.update s.file f _ g).type = .none
      by_cases hgf : g = f
      · subst hgf
        simp only [Function.update_self] at hg
        omega
      · rw [Function.update_of_ne hgf] at hg ⊢
        exact hc.clean g hg
    · rw [FtSys.pipeEnds_congr fun g => type_update_ref s.file f _ g]
      exact hc.ends q w
    · show (Function.update s.file f _ g).ref = s.slotRefs g + Holders.count s.held g
      have hg := href g
      by_cases hgf : g = f
      · subst hgf
        rw [if_pos rfl] at hg
        simp only [Function.update_self]
        omega
      · rw [if_neg hgf] at hg
        rw [Function.update_of_ne hgf]
        omega
  · -- the last reference: nothing counts for `f` any more
    let s₂ : FtSys := { s with file := Function.update s.file f { type := .none, ref := 0 } }
    have hrefs : ∀ g, (s₂.file g).ref = s₂.slotRefs g + Holders.count s₂.held g := by
      intro g
      have hg := href g
      show (Function.update s.file f _ g).ref = s.slotRefs g + Holders.count s.held g
      by_cases hgf : g = f
      · subst hgf
        rw [if_pos rfl] at hg
        simp only [Function.update_self]
        omega
      · rw [if_neg hgf] at hg
        rw [Function.update_of_ne hgf]
        omega
    have hclean : ∀ g, (s₂.file g).ref = 0 → (s₂.file g).type = .none := by
      intro g hg
      show (Function.update s.file f _ g).type = .none
      by_cases hgf : g = f
      · subst hgf
        simp
      · change (Function.update s.file f _ g).ref = 0 at hg
        rw [Function.update_of_ne hgf] at hg ⊢
        exact hc.clean g hg
    have hother : ∀ g, g ≠ f → (s.file g).type = (s₂.file g).type := fun g hg => by
      show _ = (Function.update s.file f _ g).type
      rw [Function.update_of_ne hg]
    by_cases hpipe : ∃ q w, (s.file f).type = .pipe q w
    · obtain ⟨q, w, ht⟩ := hpipe
      rw [ht]
      refine ⟨⟨hclean, fun q' w' => ?_, hc.marks⟩, hrefs⟩
      have hp := FtSys.pipeEnds_of_none s₂ s f hother (by simp [s₂]) q' w'
      have he := hc.ends q' w'
      show s₂.pipeEnds q' w' + Holders.count ((p, (q, w)) :: s.pending) (q', w') =
        (s.endOpen q' w').toNat
      rw [Holders.count_cons]
      rw [ht] at hp
      by_cases hqw : (q, w) = (q', w')
      · -- the entry's end passes to the owed `pipeclose`
        obtain ⟨rfl, rfl⟩ := Prod.mk.inj hqw
        rw [if_pos rfl] at hp
        rw [if_pos rfl]
        omega
      · have hne : FType.pipe q w ≠ FType.pipe q' w' := by
          intro hpq
          cases hpq
          exact hqw rfl
        rw [if_neg hne] at hp
        rw [if_neg hqw]
        omega
    · -- no pipe end: the state is the table alone
      have hnp : ∀ q w, some (s.file f).type ≠ some (.pipe q w) :=
        fun q w he => hpipe ⟨q, w, Option.some.inj he⟩
      rw [FtSys.afterClose_not_pipe s p _ hnp]
      refine ⟨⟨hclean, fun q' w' => ?_, hc.marks⟩, hrefs⟩
      rw [FtSys.pipeEnds_retype f (fun g hg => (hother g hg).symm)
        (fun q w he => hpipe ⟨q, w, he⟩) (by simp [s₂])]
      exact hc.ends q' w'

namespace FtInv

variable {s : FtSys} (hi : FtInv s)
include hi

/-- An error path of `sys_open` or `sys_pipe` closes an entry the call holds. -/
theorem closeHeld {p : Fin NPROC} {f : Fin NFILE} {ft : Ftable} {o : Option FType}
    (hh : (p, f) ∈ s.held) (hcl : fileclose s.file f = .ok (ft, o)) :
    FtInv ({ s with held := s.held.erase (p, f) }.afterClose p ft o) := by
  refine @FtCore.afterClose { s with held := s.held.erase (p, f) } ⟨hi.clean, hi.ends, hi.marks⟩ f
    (fun g => ?_) p ft o hcl
  have hh := Holders.count_erase_add hh g
  show (s.file g).ref = s.slotRefs g + Holders.count (s.held.erase (p, f)) g + _
  rw [hi.refs g]
  omega

/-- `sys_close` clears the descriptor, then closes its entry. -/
theorem close {p : Fin NPROC} {fd : Fin NOFILE} {f : Fin NFILE} {ft : Ftable} {o : Option FType}
    (hp : s.proc p = .live) (hc : s.Counted (p, fd)) (hf : s.ofile p fd = some f)
    (hcl : fileclose s.file f = .ok (ft, o)) :
    FtInv ((s.setFd p fd none).afterClose p ft o) := by
  refine @FtCore.afterClose (s.setFd p fd none) ⟨hi.clean, hi.ends, hi.marks.setFd hp fun _ => hc.2⟩
    f (fun g => ?_) p ft o hcl
  have hs := FtSys.slotRefs_drop s (p, fd) f (FtSys.setFd_agree s p fd none) hc hf
    (fun g h => by rw [FtSys.setFd_ofile_self] at h; cases h.2) g
  show (s.file g).ref = (s.setFd p fd none).slotRefs g + Holders.count s.held g + _
  rw [hi.refs g]
  omega

/-- `exit` closes the entry of a descriptor, which it clears only afterwards. -/
theorem exitClose {p : Fin NPROC} {fd : Fin NOFILE} {f : Fin NFILE} {ft : Ftable}
    {o : Option FType} (hp : s.proc p = .live) (hc : s.Counted (p, fd))
    (hf : s.ofile p fd = some f) (hcl : fileclose s.file f = .ok (ft, o)) :
    FtInv ({ s with exited := (p, fd) :: s.exited }.afterClose p ft o) := by
  refine @FtCore.afterClose { s with exited := (p, fd) :: s.exited } ⟨hi.clean, hi.ends,
    hi.marks.exitClose hp (by rw [hf]; exact nofun) hc.2⟩ f (fun g => ?_) p ft o hcl
  have hs := @FtSys.slotRefs_drop { s with exited := (p, fd) :: s.exited } s (p, fd) f
    (fun x hx => ⟨by simp only [FtSys.Counted, List.mem_cons, hx, false_or], rfl⟩) hc hf
    (fun g h => h.1.2.2 List.mem_cons_self) g
  show (s.file g).ref = FtSys.slotRefs { s with exited := (p, fd) :: s.exited } g +
    Holders.count s.held g + _
  rw [hi.refs g]
  omega

/-- Every step keeps the invariant. -/
theorem step {s' : FtSys} (h : FtStep s s') : FtInv s' := by
  cases h with
  | idle => exact hi
  | alloc _ hf => exact hi.alloc hf
  | openFd hp hh ht hfd => exact hi.openFd hp hh ht hfd
  | pipeFd hp hh hfd => exact hi.pipeFd hp hh hfd
  | unFd hp hc hf => exact hi.unFd hp hc hf
  | closeHeld _ hh hcl => exact hi.closeHeld hh hcl
  | kalloc _ hr hw hne htr htw hq => exact hi.kalloc hr hw hne htr htw hq
  | close hp hc hf hcl => exact hi.close hp hc hf hcl
  | dup hp _ hf hfd => exact hi.dup _ hp hfd
  | filedup hp hd hf hdup => exact hi.filedup hp hd hf hdup
  | pipeclose hm hq => exact hi.pipeclose hm hq
  | fork _ hc hf => exact hi.fork hc hf
  | exitClose hp hc hf hcl => exact hi.exitClose hp hc hf hcl
  | exitClear hx => exact hi.exitClear hx
  | exitEnd _ hnone => exact hi.exitEnd hnone
  | reap hz => exact hi.reap hz

end FtInv

theorem FtInv.init {s : FtSys} (h : FtInit s) : FtInv s := by
  obtain ⟨hf, hq, ho, hh, hd, he, hp⟩ := h
  have hslots : ∀ g, s.slotRefs g = 0 := by
    intro g
    simp [FtSys.slotRefs, ho]
  refine ⟨⟨fun g _ => by rw [hf g], fun q w => ?_, ⟨?_, ?_, ?_, ?_, ?_⟩⟩, fun g => ?_⟩
  · have hends : s.pipeEnds q w = 0 := by
      simp [FtSys.pipeEnds, hf]
    simp [hends, hp, FtSys.endOpen, hq, pageEndOpen]
  · intro x hx
    simp [hd, he] at hx
  · rw [hd]
    exact List.nodup_nil
  · rw [he]
    exact List.nodup_nil
  · intro x hx
    simp [hd] at hx
  · intro p _ fd
    exact ho p fd
  · rw [hf g, hslots g, hh]
    rfl

theorem FtInv.reachable {s : FtSys} (h : FtReachable s) : FtInv s :=
  Reach.Reachable.invariant (fun t (h0 : FtInit t) => FtInv.init h0)
    (fun _ _ _ (hi : FtInv _) hs => hi.step (ftStep_of_ftNext hs)) h

/-! ## What one step does to a count, an end or a page -/

namespace FtStep

variable {s s' : FtSys}

/-- Only `filealloc` gives a reference to an entry that had none: one, held by the call. -/
theorem ref_from_zero (h : FtStep s s') {f : Fin NFILE} (h0 : (s.file f).ref = 0) :
    (s'.file f).ref = 0 ∨ ((s'.file f).ref = 1 ∧ ∃ p, s'.held = (p, f) :: s.held) := by
  cases h with
  | @alloc p g ft _ hf =>
    obtain ⟨-, rfl⟩ := filealloc_some hf
    by_cases hgf : f = g
    · subst hgf
      exact .inr ⟨by simp, p, rfl⟩
    · left
      show (Function.update s.file g _ f).ref = 0
      rw [Function.update_of_ne hgf]
      exact h0
  | openFd =>
    left
    show (Function.update s.file _ _ f).ref = 0
    rw [ref_update_type]
    exact h0
  | kalloc =>
    left
    show (Function.update (Function.update s.file _ _) _ _ f).ref = 0
    rw [kalloc_ref]
    exact h0
  | closeHeld _ _ hcl | close _ _ _ hcl | exitClose _ _ _ hcl =>
    left
    rw [FtSys.afterClose_file]
    exact Nat.le_zero.mp (h0 ▸ fileclose_ref_le hcl f)
  | @filedup p fd g ft _ _ _ hdup =>
    obtain ⟨h1, rfl⟩ := filedup_ok hdup
    have hgf : f ≠ g := by
      rintro rfl
      omega
    left
    show (Function.update s.file g _ f).ref = 0
    rw [Function.update_of_ne hgf]
    exact h0
  | fork _ _ hf =>
    exact .inl (forkFiles_ref_zero _ _ hf f h0)
  | idle | pipeFd | unFd | dup | pipeclose | exitClear | exitEnd | reap =>
    exact .inl h0

/-- The pages change only at `pipealloc`'s `kalloc` of a page that was none, and at a
`pipeclose` owed for one of a page's ends. -/
theorem pipes_cases (h : FtStep s s') :
    s'.pipes = s.pipes ∨
    (∃ q, s.pipes q = none ∧ s'.pipes = Function.update s.pipes q (some Pipe.fresh)) ∨
    (∃ p q w pp, (p, (q, w)) ∈ s.pending ∧ s.pipes q = some pp ∧
      s'.pipes = Function.update s.pipes q (pipecloseFree pp w) ∧
      s'.pending = s.pending.erase (p, (q, w))) := by
  cases h with
  | @kalloc p rf wf q _ _ _ _ _ _ hq => exact .inr (.inl ⟨q, hq, rfl⟩)
  | @pipeclose p q w pp hm hq => exact .inr (.inr ⟨p, q, w, pp, hm, hq, rfl, rfl⟩)
  | closeHeld | close | exitClose => exact .inl (FtSys.afterClose_pipes _ _ _ _)
  | idle | alloc | openFd | pipeFd | unFd | dup | filedup | fork | exitClear | exitEnd | reap =>
    exact .inl rfl

/-- An open end closes only at the `pipeclose` owed for it. -/
theorem end_closes (h : FtStep s s') {q : Nat} {w : Bool} (ho : s.endOpen q w = true)
    (hc : s'.endOpen q w = false) :
    ∃ p, (p, (q, w)) ∈ s.pending ∧ s'.pending = s.pending.erase (p, (q, w)) := by
  unfold FtSys.endOpen at ho hc
  rcases pipes_cases h with hp | ⟨q₀, hq, hp⟩ | ⟨p, q₀, w₀, pp, hm, hq, hp, hpend⟩
  · rw [hp, ho] at hc
    cases hc
  · -- a new page opens its ends, and closes none
    rw [hp] at hc
    by_cases hqq : q = q₀
    · subst hqq
      rw [hq] at ho
      cases ho
    · rw [Function.update_of_ne hqq, ho] at hc
      cases hc
  · rw [hp] at hc
    by_cases hqq : q = q₀
    · subst hqq
      rw [Function.update_self, pageEndOpen_pipecloseFree, ← hq, ho, Bool.and_true] at hc
      -- `pipeclose` closes its own end only
      have hww : w = w₀ := by simpa using hc
      subst hww
      exact ⟨p, hm, hpend⟩
    · rw [Function.update_of_ne hqq, ho] at hc
      cases hc

/-- A page is freed only at a `pipeclose` owed for one of its ends. -/
theorem page_freed (h : FtStep s s') {q : Nat} (hs : s.pipes q ≠ none) (hs' : s'.pipes q = none) :
    ∃ p w, (p, (q, w)) ∈ s.pending ∧ s'.pending = s.pending.erase (p, (q, w)) := by
  rcases pipes_cases h with hp | ⟨q₀, hq, hp⟩ | ⟨p, q₀, w₀, pp, hm, hq, hp, hpend⟩
  · rw [hp] at hs'
    exact absurd hs' hs
  · rw [hp] at hs'
    by_cases hqq : q = q₀
    · subst hqq
      rw [Function.update_self] at hs'
      cases hs'
    · rw [Function.update_of_ne hqq] at hs'
      exact absurd hs' hs
  · rw [hp] at hs'
    by_cases hqq : q = q₀
    · subst hqq
      exact ⟨p, w₀, hm, hpend⟩
    · rw [Function.update_of_ne hqq] at hs'
      exact absurd hs' hs

end FtStep

/-! ## The counts in every reachable state -/

theorem ftable_refcounts {s : FtSys} (h : FtReachable s) :
    -- the count of each entry is its counted descriptors and the references calls hold
    (∀ f, (s.file f).ref = s.slotRefs f + Holders.count s.held f) ∧
    -- an entry `filealloc` may take is `FD_NONE`, and no counted descriptor or call names it
    (∀ f, (s.file f).ref = 0 → (s.file f).type = .none ∧
      (∀ x, s.Counted x → s.ofile x.1 x.2 ≠ some f) ∧ ∀ p, (p, f) ∉ s.held) ∧
    -- an open end of a pipe has one owner, an entry or an owed `pipeclose`; a closed end none
    (∀ q w, s.pipeEnds q w + Holders.count s.pending (q, w) = (s.endOpen q w).toNat) ∧
    -- so an owed `pipeclose` finds its end open, and is its only owner
    (∀ p q w, (p, (q, w)) ∈ s.pending → s.endOpen q w = true ∧ s.pipeEnds q w = 0 ∧
      Holders.count s.pending (q, w) = 1) ∧
    -- and a page that is no pipe is named by no entry and no owed `pipeclose`
    (∀ q, s.pipes q = none → ∀ w, s.pipeEnds q w = 0 ∧ Holders.count s.pending (q, w) = 0) ∧
    ∀ e s', ftNext s e = some s' →
      -- only `filealloc` gives an entry without references one, held by the call
      (∀ f, (s.file f).ref = 0 → (s'.file f).ref = 0 ∨
        ((s'.file f).ref = 1 ∧ ∃ p, s'.held = (p, f) :: s.held)) ∧
      -- an end closes only at the `pipeclose` owed for it
      (∀ q w, s.endOpen q w = true → s'.endOpen q w = false →
        ∃ p, (p, (q, w)) ∈ s.pending ∧ s'.pending = s.pending.erase (p, (q, w))) ∧
      -- a page is freed only at a `pipeclose` owed for one of its ends
      (∀ q, s.pipes q ≠ none → s'.pipes q = none →
        ∃ p w, (p, (q, w)) ∈ s.pending ∧ s'.pending = s.pending.erase (p, (q, w))) := by
  have hi := FtInv.reachable h
  refine ⟨hi.refs, fun f h0 => ?_, hi.ends, fun p q w hm => ?_, fun q hq w => ?_,
    fun e s' hs => ?_⟩
  · have hz : s.slotRefs f + Holders.count s.held f = 0 := (hi.refs f).symm.trans h0
    refine ⟨hi.clean f h0, FtSys.slotRefs_eq_zero (by omega), fun p hp => ?_⟩
    have := Holders.count_pos hp
    omega
  · have he := hi.ends q w
    have hpos := Holders.count_pos hm
    have hle := Bool.toNat_le (s.endOpen q w)
    refine ⟨?_, by omega, by omega⟩
    cases ho : s.endOpen q w
    · rw [ho, Bool.toNat_false] at he
      omega
    · rfl
  · have he := hi.ends q w
    rw [FtSys.endOpen, hq] at he
    simp only [pageEndOpen, Bool.toNat_false] at he
    omega
  · have hst := ftStep_of_ftNext hs
    exact ⟨fun f h0 => hst.ref_from_zero h0, fun q w ho hc => hst.end_closes ho hc,
      fun q hq hq' => hst.page_freed hq hq'⟩

/-- A booting kernel: `initproc` in slot 0, every other slot `UNUSED`. -/
def FtSys.boot : FtSys :=
  ⟨fun _ => ⟨.none, 0⟩, fun _ => none, fun p => if p.val = 0 then .live else .unused,
    fun _ _ => none, [], [], [], []⟩

theorem FtSys.boot_init : FtInit FtSys.boot :=
  ⟨fun _ => rfl, fun _ => rfl, fun _ _ => rfl, rfl, rfl, rfl, rfl⟩

/-- Process 0 opens a file and `dup`s its descriptor, then forks process 1, which is in
`filealloc` for a second entry. -/
def forkRun : List FtCall :=
  [.filealloc ⟨0, by decide⟩, .openFd ⟨0, by decide⟩ ⟨0, by decide⟩ 1, .dup ⟨0, by decide⟩ ⟨0, by decide⟩,
    .filedup ⟨0, by decide⟩ ⟨1, by decide⟩, .fork ⟨0, by decide⟩, .filealloc ⟨1, by decide⟩]

/-- After `forkRun`, the open file's entry counts the two descriptors of each process, and
the second entry the reference `filealloc` holds. -/
theorem ftable_refcounts_fork : ∃ s, FtReachable s ∧
    (s.file ⟨0, by decide⟩).ref = 4 ∧ (s.file ⟨1, by decide⟩).ref = 1 ∧
    s.held = [(⟨1, by decide⟩, ⟨1, by decide⟩)] ∧
    ∀ f, (s.file f).ref = s.slotRefs f + Holders.count s.held f := by
  have hrun : Reach.runEvents ftNext FtSys.boot forkRun =
      some ((Reach.runEvents ftNext FtSys.boot forkRun).getD FtSys.boot) := rfl
  have hreach : FtReachable _ := Reach.reachable_of_runEvents (.init FtSys.boot_init) hrun
  exact ⟨_, hreach, by decide, by decide, by decide, (ftable_refcounts hreach).1⟩

/-- Process 0 forks process 1, opens a file on descriptor 0 and starts `exit`, whose loop
closes the descriptor's entry; then process 1 opens a file. -/
def exitRace : List FtCall :=
  [.fork ⟨0, by decide⟩, .filealloc ⟨0, by decide⟩, .openFd ⟨0, by decide⟩ ⟨0, by decide⟩ 1,
    .exitClose ⟨0, by decide⟩ ⟨0, by decide⟩, .filealloc ⟨1, by decide⟩,
    .openFd ⟨1, by decide⟩ ⟨0, by decide⟩ 2]

/-- `exit` closes a descriptor's entry before it clears the descriptor; in between, a child
`open`s a file and gets the freed entry. Two descriptors of live processes then name an
entry whose count is one, and no call holds a reference. -/
theorem exit_slot_outlives_ref : ∃ s, FtReachable s ∧
    ∃ (f : Fin NFILE) (x y : Fin NPROC × Fin NOFILE), x ≠ y ∧
    s.proc x.1 ≠ .unused ∧ s.proc y.1 ≠ .unused ∧
    s.ofile x.1 x.2 = some f ∧ s.ofile y.1 y.2 = some f ∧ (s.file f).ref = 1 ∧ s.held = [] := by
  have hrun : Reach.runEvents ftNext FtSys.boot exitRace =
      some ((Reach.runEvents ftNext FtSys.boot exitRace).getD FtSys.boot) := rfl
  exact ⟨_, Reach.reachable_of_runEvents (.init FtSys.boot_init) hrun, ⟨0, by decide⟩,
    (⟨0, by decide⟩, ⟨0, by decide⟩), (⟨1, by decide⟩, ⟨0, by decide⟩), by decide⟩

end Xv6
