/-
# `MnApp.Server.Daemonize` — what a daemon starts with

`daemonize` forks twice, closes what it has inherited, opens its standard
streams again, and takes the lock on its pidfile.  Two things can go wrong
that the function is there to prevent: a descriptor of the parent that the
daemon keeps, and a second daemon beside the first.

**Descriptors.**  A table is a list, and `open` takes the lowest free number,
which is what the `assert`s rely on.  `daemon_fds` is the table at the end,
for every table at the beginning: the three streams, what stood at `nfiles` or
behind it, and, when there is a pidfile, its descriptor at the lowest number
that is left; nobody closes it.  `nfiles` is the limit converted to `int`, or
1024 when there is no limit.

**The pidfile.**  Any number of daemons start, go on and end in any order
(`step`), and share the file and its lock.  There are two ways to take it:

| | |
| :-- | :-- |
| `O_EXLOCK` | `open` locks and truncates |
| otherwise | `open`, then `flock`, then `lseek` to the end |

In both at most one daemon gets past it.  With the first the file is the pid
of the daemon that runs; with the second nothing truncates, and it is all the
pids that were ever written, one behind the other (`pidfile_of_daemons`).
-/
import MnApp.Lib.CLib
import MnApp.Lib.Run

namespace MnDaemon

open Run

/-! ## Descriptors -/

abbrev Path := List UInt8

/-- An open file, and the number of the `open` that made it: two descriptors that
share one are duplicates. -/
structure Desc where
  path : Path
  num : Nat
deriving DecidableEq, Repr

/-- The descriptors of a process. -/
abbrev Fds := List (Option Desc)

namespace Fds

def get (t : Fds) (k : Nat) : Option Desc := t[k]?.join

/-- `close(k)`. -/
def close (t : Fds) (k : Nat) : Fds := t.set k none

/-- The first `n` descriptors closed in turn. -/
def closeFirst (t : Fds) : Nat → Fds
  | 0 => t
  | n + 1 => (t.closeFirst n).close n

/-- The lowest free number. -/
def lowest (t : Fds) : Nat := t.findIdx Option.isNone

/-- Descriptor `k` becomes `d`. -/
def put (t : Fds) (k : Nat) (d : Desc) : Fds :=
  (t ++ List.replicate (k + 1 - t.length) none).set k (some d)

/-- `fd = open(path, …); assert(fd == n)`. -/
def openAs (can : Path → Bool) (path : Path) (n : Nat) (t : Fds) : Option Fds :=
  if can path ∧ t.lowest = n then some (t.put n ⟨path, n⟩) else none

/-- `dup2(k, n)`, which does nothing if `k` is not open. -/
def dup2 (t : Fds) (k n : Nat) : Fds :=
  match t.get k with
  | some d => t.put n d
  | none => t

end Fds

/-- What `getrlimit` says. -/
inductive Limit where
  | failed
  | infinity
  | cur (n : Nat)
deriving DecidableEq, Repr

/-- How many descriptors are closed. -/
def Limit.nfiles : Limit → Int
  | .failed | .infinity => 1024
  | .cur n => CLib.toInt n

/-- `"/dev/null"`. -/
def devNull : Path := CLib.ascii "/dev/null"

/-- Standard output: `/dev/null` is there already. -/
def Fds.stdout (can : Path → Bool) (stdoutfile : Option Path) (t : Fds) : Option Fds :=
  if stdoutfile.getD devNull = devNull then some (t.dup2 0 1)
  else t.openAs can (stdoutfile.getD devNull) 1

/-- Standard error: the same file as standard output when the names agree. -/
def Fds.stderr (can : Path → Bool) (stdoutfile stderrfile : Option Path) (t : Fds) : Option Fds :=
  if stderrfile.getD devNull = stdoutfile.getD devNull then some (t.dup2 1 2)
  else t.openAs can (stderrfile.getD devNull) 2

/-- `open(pidfile, …)`, which may take any number; without it the daemon ends. -/
def Fds.pidfile (can : Path → Bool) (pidfile : Option Path) (t : Fds) : Option Fds :=
  match pidfile with
  | none => some t
  | some path => if can path then some (t.put t.lowest ⟨path, 3⟩) else none

/-- The descriptors of `daemonize`; `none` when an `assert` fails or the pidfile cannot be
opened. -/
def daemonizeFds (can : Path → Bool) (limit : Limit) (pidfile stdoutfile stderrfile : Option Path)
    (t : Fds) : Option Fds := do
  let t ← (t.closeFirst limit.nfiles.toNat).openAs can devNull 0
  let t ← t.stdout can stdoutfile
  let t ← t.stderr can stdoutfile stderrfile
  t.pidfile can pidfile

namespace Fds

theorem get_close (t : Fds) (n k : Nat) :
    (t.close n).get k = if k = n then none else t.get k := by
  unfold get close
  rw [List.getElem?_set]
  by_cases hkn : n = k
  · subst hkn
    rw [if_pos rfl, if_pos rfl]
    split <;> rfl
  · rw [if_neg hkn, if_neg (Ne.symm hkn)]

theorem get_closeFirst (t : Fds) (n k : Nat) :
    (t.closeFirst n).get k = if k < n then none else t.get k := by
  induction n with
  | zero => rfl
  | succ n ih =>
      rw [closeFirst, get_close, ih]
      split_ifs <;> first | rfl | omega

theorem get_put (t : Fds) (n k : Nat) (d : Desc) :
    (t.put n d).get k = if k = n then some d else t.get k := by
  unfold get put
  rw [List.getElem?_set]
  by_cases hkn : n = k
  · subst hkn
    have hlen : n < (t ++ List.replicate (n + 1 - t.length) none).length := by
      rw [List.length_append, List.length_replicate]
      omega
    rw [if_pos rfl, if_pos rfl, if_pos hlen]
    rfl
  · rw [if_neg hkn, if_neg (Ne.symm hkn), List.getElem?_append, List.getElem?_replicate]
    split
    · rfl
    · rename_i hlen
      rw [List.getElem?_eq_none (Nat.le_of_not_lt hlen)]
      split <;> rfl

theorem get_dup2 {t : Fds} {d : Desc} {i : Nat} (h : t.get i = some d) (n k : Nat) :
    (t.dup2 i n).get k = if k = n then some d else t.get k := by
  unfold dup2
  rw [h]
  exact get_put t n k d

theorem get_eq_none_of_isNone {t : Fds} {k : Nat} (h : k < t.length) :
    t.get k = none ↔ t[k].isNone = true := by
  unfold get
  rw [List.getElem?_eq_getElem h, Option.join_some, Option.isNone_iff_eq_none]

theorem get_lowest (t : Fds) : t.get t.lowest = none := by
  by_cases h : t.lowest < t.length
  · rw [get_eq_none_of_isNone h]
    exact List.findIdx_getElem
  · unfold get
    rw [List.getElem?_eq_none (Nat.le_of_not_lt h)]
    rfl

theorem get_below_lowest {t : Fds} {k : Nat} (h : k < t.lowest) : t.get k ≠ none := by
  have hlen : k < t.length := Nat.lt_of_lt_of_le h List.findIdx_le_length
  rw [ne_eq, get_eq_none_of_isNone hlen]
  exact Bool.eq_false_iff.mp (List.not_of_lt_findIdx h)

/-- `open` takes `n` when `n` is free and the numbers below are not. -/
theorem lowest_eq {t : Fds} {n : Nat} (hbelow : ∀ k, k < n → t.get k ≠ none)
    (hfree : t.get n = none) : t.lowest = n := by
  rcases Nat.lt_trichotomy t.lowest n with h | h | h
  · exact absurd t.get_lowest (hbelow _ h)
  · exact h
  · exact absurd hfree (get_below_lowest h)

theorem openAs_eq {can : Path → Bool} {path : Path} {t : Fds} {n : Nat} (hcan : can path = true)
    (hbelow : ∀ k, k < n → t.get k ≠ none) (hfree : t.get n = none) :
    t.openAs can path n = some (t.put n ⟨path, n⟩) :=
  if_pos ⟨hcan, lowest_eq hbelow hfree⟩

end Fds

/-- The file behind standard output. -/
def outDesc (stdoutfile : Option Path) : Desc :=
  let path := stdoutfile.getD devNull
  if path = devNull then ⟨devNull, 0⟩ else ⟨path, 1⟩

/-- The file behind standard error. -/
def errDesc (stdoutfile stderrfile : Option Path) : Desc :=
  let path := stderrfile.getD devNull
  if path = stdoutfile.getD devNull then outDesc stdoutfile else ⟨path, 2⟩

/-- The descriptors behind `daemonize`, the pidfile apart. -/
def daemonFd (limit : Limit) (stdoutfile stderrfile : Option Path) (t : Fds) : Nat → Option Desc
  | 0 => some ⟨devNull, 0⟩
  | 1 => some (outDesc stdoutfile)
  | 2 => some (errDesc stdoutfile stderrfile)
  | k => if k < limit.nfiles then none else t.get k

/-- The lowest number that is free. -/
def FirstFree (fd : Nat → Option Desc) (n : Nat) : Prop := fd n = none ∧ ∀ k < n, fd k ≠ none

section
variable {can : Path → Bool} {limit : Limit} {pid out err : Option Path} {t t₁ t₂ : Fds}

theorem stdin_opened (hcan : can devNull = true) (hfree : t.get 0 = none) : ∃ t₁,
    t.openAs can devNull 0 = some t₁ ∧
      ∀ k, t₁.get k = if k = 0 then some ⟨devNull, 0⟩ else t.get k :=
  ⟨_, Fds.openAs_eq hcan (fun _ hk => absurd hk (Nat.not_lt_zero _)) hfree,
    fun k => Fds.get_put t 0 k _⟩

theorem stdout_opened (hcan : can (out.getD devNull) = true)
    (h₀ : t₁.get 0 = some ⟨devNull, 0⟩) (hfree : t₁.get 1 = none) : ∃ t₂,
    t₁.stdout can out = some t₂ ∧
      ∀ k, t₂.get k = if k = 1 then some (outDesc out) else t₁.get k := by
  by_cases hnull : out.getD devNull = devNull
  · refine ⟨_, if_pos hnull, fun k => ?_⟩
    rw [Fds.get_dup2 h₀, outDesc, if_pos hnull]
  · have hbelow : ∀ k, k < 1 → t₁.get k ≠ none := fun k hk => by
      rw [Nat.lt_one_iff.mp hk, h₀]
      exact nofun
    refine ⟨_, (if_neg hnull).trans (Fds.openAs_eq hcan hbelow hfree), fun k => ?_⟩
    rw [Fds.get_put, outDesc, if_neg hnull]

theorem stderr_opened (hcan : can (err.getD devNull) = true) (h₀ : t₂.get 0 ≠ none)
    (h₁ : t₂.get 1 = some (outDesc out)) (hfree : t₂.get 2 = none) : ∃ t₃,
    t₂.stderr can out err = some t₃ ∧
      ∀ k, t₃.get k = if k = 2 then some (errDesc out err) else t₂.get k := by
  by_cases hsame : err.getD devNull = out.getD devNull
  · refine ⟨_, if_pos hsame, fun k => ?_⟩
    rw [Fds.get_dup2 h₁, errDesc, if_pos hsame]
  · have hbelow : ∀ k, k < 2 → t₂.get k ≠ none := fun k hk => by
      obtain rfl | rfl : k = 0 ∨ k = 1 := by omega
      · exact h₀
      · rw [h₁]
        exact nofun
    refine ⟨_, (if_neg hsame).trans (Fds.openAs_eq hcan hbelow hfree), fun k => ?_⟩
    rw [Fds.get_put, errDesc, if_neg hsame]

theorem pidfile_opened (hcan : ∀ path ∈ pid, can path = true) (t : Fds) : ∃ t',
    t.pidfile can pid = some t' ∧ ∃ n, FirstFree t.get n ∧
      ∀ k, t'.get k = if k = n then pid.map (⟨·, 3⟩) else t.get k := by
  have hfree : FirstFree t.get t.lowest := ⟨t.get_lowest, fun _ hk => Fds.get_below_lowest hk⟩
  cases pid with
  | none =>
      refine ⟨t, rfl, t.lowest, hfree, fun k => ?_⟩
      split
      · rename_i hk
        exact hk ▸ hfree.1
      · rfl
  | some path =>
      exact ⟨_, if_pos (hcan path rfl), t.lowest, hfree, fun k => Fds.get_put t _ k _⟩

end

/-- **The descriptors of a daemon.**  When at least three descriptors are closed
and the files can be opened, no `assert` fails, and the daemon has its three
streams, exactly those descriptors of its parent that stand at `nfiles` or behind
it, and that of its pidfile, if there is one, at the lowest number that is left.
When the limit does not fit into an `int` and comes out negative, nothing is closed,
and a parent with a standard input dies. -/
theorem daemon_fds (can : Path → Bool) (limit : Limit) (pid out err : Option Path) (t : Fds)
    (hcan : can devNull = true ∧ can (out.getD devNull) = true ∧ can (err.getD devNull) = true ∧
      ∀ path ∈ pid, can path = true) :
    (3 ≤ limit.nfiles → ∃ t', daemonizeFds can limit pid out err t = some t' ∧
      ∃ n, FirstFree (daemonFd limit out err t) n ∧
        ∀ k, t'.get k = if k = n then pid.map (⟨·, 3⟩) else daemonFd limit out err t k) ∧
    (limit.nfiles ≤ 0 → t.get 0 ≠ none → daemonizeFds can limit pid out err t = none) := by
  obtain ⟨hnull, hout, herr, hpid⟩ := hcan
  constructor
  · intro hn
    have hclosed : ∀ k, (t.closeFirst limit.nfiles.toNat).get k =
        if (k : Int) < limit.nfiles then none else t.get k := fun k => by
      rw [Fds.get_closeFirst]
      exact if_congr (by omega) rfl rfl
    have hfree : ∀ k : Nat, k < 3 → (t.closeFirst limit.nfiles.toNat).get k = none := fun k hk => by
      rw [hclosed, if_pos (by omega)]
    obtain ⟨t₁, ht₁, hget₁⟩ := stdin_opened hnull (hfree 0 (by decide))
    have h₁ : t₁.get 1 = none := (hget₁ 1).trans (hfree 1 (by decide))
    obtain ⟨t₂, ht₂, hget₂⟩ := stdout_opened hout (hget₁ 0) h₁
    have h₂ : t₂.get 2 = none := ((hget₂ 2).trans (hget₁ 2)).trans (hfree 2 (by decide))
    have h₀ : t₂.get 0 ≠ none := by
      rw [hget₂ 0, if_neg (by decide), hget₁ 0]
      exact nofun
    obtain ⟨t₃, ht₃, hget₃⟩ := stderr_opened herr h₀ (hget₂ 1) h₂
    have hstreams : t₃.get = daemonFd limit out err t := by
      funext k
      rw [hget₃, hget₂, hget₁]
      match k with
      | 0 => rfl
      | 1 => rfl
      | 2 => rfl
      | k + 3 => exact hclosed (k + 3)
    obtain ⟨t', ht', n, hfirst, hget⟩ := pidfile_opened hpid t₃
    rw [hstreams] at hfirst hget
    refine ⟨t', ?_, n, hfirst, hget⟩
    simp only [daemonizeFds, ht₁, Option.bind_eq_bind, Option.bind_some, ht₂, ht₃, ht']
  · intro hn h₀
    have hzero : limit.nfiles.toNat = 0 := Int.toNat_of_nonpos hn
    have hlow : t.lowest ≠ 0 := fun hl => h₀ (hl ▸ t.get_lowest)
    rw [daemonizeFds, hzero]
    simp [Fds.closeFirst, Fds.openAs, hlow]

/-- A parent with five descriptors under a limit of four, a log file for both streams,
and a pidfile. -/
theorem daemon_fds_limited : ∃ t',
    daemonizeFds (fun _ => true) (.cur 4) (some [112]) (some [108]) (some [108])
      [some ⟨[97], 9⟩, none, some ⟨[98], 9⟩, some ⟨[99], 9⟩, some ⟨[100], 9⟩] = some t' ∧
    t'.get 1 = t'.get 2 ∧ t'.get 3 = some ⟨[112], 3⟩ ∧ t'.get 4 = some ⟨[100], 9⟩ := by
  obtain ⟨t', ht', n, ⟨hfree, hbelow⟩, hget⟩ := (daemon_fds (fun _ => true) (.cur 4) (some [112])
    (some [108]) (some [108])
    [some ⟨[97], 9⟩, none, some ⟨[98], 9⟩, some ⟨[99], 9⟩, some ⟨[100], 9⟩]
    ⟨rfl, rfl, rfl, fun _ _ => rfl⟩).1 (by decide)
  -- 3 is the lowest number that is left
  have hn : n = 3 := by
    rcases Nat.lt_trichotomy n 3 with h | h | h
    · match n, h with
      | 0, _ => cases hfree
      | 1, _ => cases hfree
      | 2, _ => cases hfree
    · exact h
    · exact absurd (by decide) (hbelow 3 h)
  subst hn
  refine ⟨t', ht', ?_, ?_, ?_⟩
  · rw [hget, hget]
    decide
  · rw [hget]
    decide
  · rw [hget]
    decide

/-! ## The pidfile -/

abbrev Pid := Nat

/-- Where a daemon is, from `open(pidfile, …)` on.  Behind its write it carries how
many bytes that was. -/
inductive DaemonPc where
  | start
  | opened
  | locked
  | placed (off : Nat)
  | written (n : Nat)
  | synced (n : Nat)
  | running (n : Nat)
  | exited
deriving DecidableEq, Repr

/-- Past the lock, and alive. -/
def DaemonPc.holds : DaemonPc → Bool
  | .locked | .placed _ | .written _ | .synced _ | .running _ => true
  | .start | .opened | .exited => false

/-- `snprintf(buf, countof(buf), "%d", getpid())`. -/
def pidText (p : Pid) : List UInt8 := CLib.ascii (toString p)

/-- The daemons and what they share.  `log` is not part of it: it notes who wrote
how many bytes since the file was last truncated, and `base` what was there then. -/
structure World where
  pc : Pid → DaemonPc
  holder : Option Pid
  contents : List UInt8
  base : List UInt8
  log : List (Pid × Nat)

/-- A pidfile that holds something, and nobody who has opened it. -/
def World.init (contents : List UInt8) : World := ⟨fun _ => .start, none, contents, contents, []⟩

namespace World

def setPc (w : World) (p : Pid) (pc : DaemonPc) : World :=
  { w with pc := Function.update w.pc p pc }

/-- The daemon ends, and its lock with it. -/
def exit (w : World) (p : Pid) : World :=
  { w with holder := if w.holder = some p then none else w.holder }.setPc p .exited

/-- The lock is taken. -/
def lock (w : World) (p : Pid) (pc : DaemonPc) : World := { w with holder := some p }.setPc p pc

/-- The file is truncated. -/
def truncate (w : World) : World := { w with contents := [], base := [], log := [] }

/-- The first `n` bytes of the pid are written at `off`. -/
def write (w : World) (p : Pid) (off n : Nat) : World :=
  { w with
    contents := w.contents.take off ++ (pidText p).take n ++ w.contents.drop (off + n)
    log := w.log ++ [(p, n)] }.setPc p (.written n)

end World

inductive DaemonAct where
  | openFile (p : Pid) (ok : Bool)
  | flock (p : Pid)
  | lseek (p : Pid) (ok : Bool)
  | write (p : Pid) (n : Nat)
  | fsync (p : Pid) (ok : Bool)
  | chdir (p : Pid) (ok : Bool)
  | exit (p : Pid)
deriving DecidableEq, Repr

/-- What a daemon does next; `exlock` says whether there is `O_EXLOCK`.  A call that
fails ends it, and it can be killed at any time. -/
def step (exlock : Bool) (w : World) : DaemonAct → Option World
  | .openFile p ok =>
      if w.pc p = .start then
        if exlock then
          if ok ∧ w.holder = none then some ((w.truncate).lock p (.placed 0)) else some (w.exit p)
        else some (if ok then w.setPc p .opened else w.exit p)
      else none
  | .flock p =>
      if w.pc p = .opened then
        some (if w.holder = none then w.lock p .locked else w.exit p)
      else none
  | .lseek p ok =>
      if w.pc p = .locked then
        some (if ok then w.setPc p (.placed w.contents.length) else w.exit p)
      else none
  | .write p n =>
      match w.pc p with
      | .placed off =>
          if n ≤ (pidText p).length then
            some (if 0 < n then w.write p off n else w.exit p)
          else none
      | _ => none
  | .fsync p ok =>
      match w.pc p with
      | .written n => some (if ok then w.setPc p (.synced n) else w.exit p)
      | _ => none
  | .chdir p ok =>
      match w.pc p with
      | .synced n => some (if ok then w.setPc p (.running n) else w.exit p)
      | _ => none
  | .exit p => if w.pc p = .exited then none else some (w.exit p)

/-- The same, as a relation: what happens to one daemon. -/
inductive Step (exlock : Bool) (w : World) : World → Prop
  | exits (p : Pid) : Step exlock w (w.exit p)
  | opens (p : Pid) : w.pc p = .start → exlock = false → Step exlock w (w.setPc p .opened)
  | takes (p : Pid) : w.pc p = .start → exlock = true → w.holder = none →
      Step exlock w (w.truncate.lock p (.placed 0))
  | locks (p : Pid) : w.pc p = .opened → w.holder = none → Step exlock w (w.lock p .locked)
  | seeks (p : Pid) : w.pc p = .locked → Step exlock w (w.setPc p (.placed w.contents.length))
  | writes (p : Pid) (off n : Nat) : w.pc p = .placed off → 0 < n → n ≤ (pidText p).length →
      Step exlock w (w.write p off n)
  | syncs (p : Pid) (n : Nat) : w.pc p = .written n → Step exlock w (w.setPc p (.synced n))
  | runs (p : Pid) (n : Nat) : w.pc p = .synced n → Step exlock w (w.setPc p (.running n))

section
variable {exlock : Bool} {w w' : World} {p : Pid}

theorem step_cases {a : DaemonAct} (h : step exlock w a = some w') : Step exlock w w' := by
  cases a with
  | openFile p ok =>
      simp only [step] at h
      split_ifs at h with hpc hex hok hok
      · cases h
        exact .takes p hpc hex hok.2
      · cases h
        exact .exits p
      · cases h
        exact .opens p hpc (Bool.eq_false_iff.mpr hex)
      · cases h
        exact .exits p
  | flock p =>
      simp only [step] at h
      split_ifs at h with hpc hfree
      · cases h
        exact .locks p hpc hfree
      · cases h
        exact .exits p
  | lseek p ok =>
      simp only [step] at h
      split_ifs at h with hpc hok
      · cases h
        exact .seeks p hpc
      · cases h
        exact .exits p
  | write p n =>
      simp only [step] at h
      split at h
      · rename_i off hpc
        split_ifs at h with hlen hpos
        · cases h
          exact .writes p off n hpc hpos hlen
        · cases h
          exact .exits p
      · cases h
  | fsync p ok =>
      simp only [step] at h
      split at h
      · rename_i n hpc
        split_ifs at h
        · cases h
          exact .syncs p n hpc
        · cases h
          exact .exits p
      · cases h
  | chdir p ok =>
      simp only [step] at h
      split at h
      · rename_i n hpc
        split_ifs at h
        · cases h
          exact .runs p n hpc
        · cases h
          exact .exits p
      · cases h
  | exit p =>
      simp only [step] at h
      split_ifs at h
      cases h
      exact .exits p

/-! ## One daemon at a time -/

/-- The lock is held by whoever is past it. -/
def HeldBy (w : World) : Prop := ∀ q, (w.pc q).holds = true ↔ w.holder = some q

theorem HeldBy.only (h : HeldBy w) {q : Pid} (hp : (w.pc p).holds = true)
    (hq : (w.pc q).holds = true) : q = p :=
  Option.some.inj (((h q).mp hq).symm.trans ((h p).mp hp))

theorem HeldBy.others (h : HeldBy w) (hp : (w.pc p).holds = true) {q : Pid} (hq : q ≠ p) :
    (w.pc q).holds = false :=
  Bool.eq_false_iff.mpr fun hqh => hq (h.only hp hqh)

theorem HeldBy.setPc (h : HeldBy w) {pc : DaemonPc} (hpc : pc.holds = (w.pc p).holds) :
    HeldBy (w.setPc p pc) := by
  refine (Function.forall_update_iff w.pc fun q pc' => pc'.holds = true ↔ w.holder = some q).mpr
    ⟨?_, fun q _ => h q⟩
  rw [hpc]
  exact h p

theorem HeldBy.lock (h : HeldBy w) {pc : DaemonPc} (hpc : pc.holds = true)
    (hfree : w.holder = none) : HeldBy (w.lock p pc) := by
  refine (Function.forall_update_iff w.pc fun q pc' => pc'.holds = true ↔ some p = some q).mpr
    ⟨by simp [hpc], fun q hq => ?_⟩
  rw [h q, hfree]
  simp [Ne.symm hq]

theorem HeldBy.exit (h : HeldBy w) : HeldBy (w.exit p) := by
  refine (Function.forall_update_iff w.pc fun q pc' => pc'.holds = true ↔
    (if w.holder = some p then none else w.holder) = some q).mpr ⟨?_, fun q hq => ?_⟩
  · split
    · simp [DaemonPc.holds]
    · rename_i hne
      simp [DaemonPc.holds, hne]
  · rw [h q]
    split
    · rename_i heq
      simp [heq, Ne.symm hq]
    · rfl

/-! ## What the file holds -/

/-- What the daemons of the log have written. -/
def World.pids (w : World) : List UInt8 := w.log.flatMap fun e => (pidText e.1).take e.2

/-- Where a daemon stands with the file. -/
def Stands (exlock : Bool) (w : World) (p : Pid) : DaemonPc → Prop
  | .start | .exited => True
  | .opened | .locked => exlock = false
  | .placed off => off = w.contents.length ∧ (exlock = true → w.base = [] ∧ w.log = [])
  | .written n | .synced n | .running n =>
      w.log.getLast? = some (p, n) ∧ (exlock = true → w.base = [] ∧ w.log = [(p, n)])

theorem stands_idle {q : Pid} {pc : DaemonPc} (hpc : pc.holds = false) (h : Stands exlock w q pc) :
    Stands exlock w' q pc := by
  cases pc <;> first | exact h | cases hpc

theorem stands_same {q : Pid} {pc : DaemonPc} (hcontents : w'.contents = w.contents)
    (hbase : w'.base = w.base) (hlog : w'.log = w.log) (h : Stands exlock w q pc) :
    Stands exlock w' q pc := by
  unfold Stands at h ⊢
  rw [hcontents, hbase, hlog]
  exact h

structure PidInv (exlock : Bool) (init : List UInt8) (w : World) : Prop where
  held : HeldBy w
  contents : w.contents = w.base ++ w.pids
  base : exlock = false → w.base = init
  sizes : ∀ e ∈ w.log, 0 < e.2 ∧ e.2 ≤ (pidText e.1).length
  stands : ∀ q, Stands exlock w q (w.pc q)

theorem pidInv_init (exlock : Bool) (init : List UInt8) : PidInv exlock init (.init init) where
  held _ := ⟨nofun, nofun⟩
  contents := (List.append_nil _).symm
  base _ := rfl
  sizes _ := nofun
  stands _ := trivial

variable {init : List UInt8}

theorem PidInv.setPc (h : PidInv exlock init w) {pc : DaemonPc} (hheld : HeldBy w')
    (hpc : w'.pc = Function.update w.pc p pc) (hcontents : w'.contents = w.contents)
    (hbase : w'.base = w.base) (hlog : w'.log = w.log) (hst : Stands exlock w p pc) :
    PidInv exlock init w' := by
  refine ⟨hheld, ?_, ?_, ?_, ?_⟩
  · rw [hcontents, hbase, World.pids, hlog]
    exact h.contents
  · rw [hbase]
    exact h.base
  · rw [hlog]
    exact h.sizes
  · rw [hpc]
    exact (Function.forall_update_iff w.pc fun q pc' => Stands exlock w' q pc').mpr
      ⟨stands_same hcontents hbase hlog hst,
        fun q _ => stands_same hcontents hbase hlog (h.stands q)⟩

theorem PidInv.take (h : PidInv exlock init w) (hex : exlock = true) (hfree : w.holder = none) :
    PidInv exlock init (w.truncate.lock p (.placed 0)) := by
  have hidle : ∀ q, (w.pc q).holds = false := fun q =>
    Bool.eq_false_iff.mpr fun hq => nomatch ((h.held q).mp hq).symm.trans hfree
  have hstands : ∀ q, Stands exlock (w.truncate.lock p (.placed 0)) q
      ((w.truncate.lock p (.placed 0)).pc q) :=
    (Function.forall_update_iff w.pc fun q pc' => Stands exlock _ q pc').mpr
      ⟨⟨rfl, fun _ => ⟨rfl, rfl⟩⟩, fun q _ => stands_idle (hidle q) (h.stands q)⟩
  have hbase : exlock = false → (w.truncate.lock p (.placed 0)).base = init := fun hno =>
    nomatch hex.symm.trans hno
  exact ⟨HeldBy.lock (w := w.truncate) h.held rfl hfree, rfl, hbase, nofun, hstands⟩

theorem PidInv.write (h : PidInv exlock init w) {off n : Nat} (hpc : w.pc p = .placed off)
    (hpos : 0 < n) (hlen : n ≤ (pidText p).length) : PidInv exlock init (w.write p off n) := by
  obtain ⟨hoff, hlog⟩ : off = w.contents.length ∧ (exlock = true → w.base = [] ∧ w.log = []) := by
    have hst := h.stands p
    rw [hpc] at hst
    exact hst
  have hholds : (w.pc p).holds = true := by rw [hpc]; rfl
  refine ⟨HeldBy.setPc (w := { w with contents := _, log := _ }) h.held hholds.symm, ?_, h.base,
    ?_, (Function.forall_update_iff w.pc fun q pc' => Stands exlock _ q pc').mpr ⟨⟨?_, ?_⟩, ?_⟩⟩
  · show w.contents.take off ++ (pidText p).take n ++ w.contents.drop (off + n) =
      w.base ++ (w.log ++ [(p, n)]).flatMap fun e => (pidText e.1).take e.2
    rw [hoff, List.take_length, List.drop_eq_nil_of_le (Nat.le_add_right _ _), List.append_nil,
      List.flatMap_append, List.flatMap_singleton, ← List.append_assoc]
    exact congrArg (· ++ _) h.contents
  · intro e he
    rcases List.mem_append.mp he with he | he
    · exact h.sizes e he
    · rw [List.mem_singleton.mp he]
      exact ⟨hpos, hlen⟩
  · exact List.getLast?_concat
  · intro hex
    obtain ⟨hbase, hnil⟩ := hlog hex
    refine ⟨hbase, ?_⟩
    show w.log ++ [(p, n)] = [(p, n)]
    rw [hnil, List.nil_append]
  · exact fun q hq => stands_idle (h.held.others hholds hq) (h.stands q)

theorem PidInv.step {a : DaemonAct} (h : PidInv exlock init w)
    (hs : MnDaemon.step exlock w a = some w') : PidInv exlock init w' := by
  cases step_cases hs with
  | exits p => exact h.setPc h.held.exit rfl rfl rfl rfl trivial
  | opens p hpc hex => exact h.setPc (h.held.setPc (by rw [hpc]; rfl)) rfl rfl rfl rfl hex
  | takes p hpc hex hfree => exact h.take hex hfree
  | locks p hpc hfree =>
      have hst := h.stands p
      rw [hpc] at hst
      exact h.setPc (h.held.lock rfl hfree) rfl rfl rfl rfl hst
  | seeks p hpc =>
      have hst := h.stands p
      rw [hpc] at hst
      exact h.setPc (h.held.setPc (by rw [hpc]; rfl)) rfl rfl rfl rfl
        ⟨rfl, fun hex => nomatch hex.symm.trans hst⟩
  | writes p off n hpc hpos hlen => exact h.write hpc hpos hlen
  | syncs p n hpc =>
      have hst := h.stands p
      rw [hpc] at hst
      exact h.setPc (h.held.setPc (by rw [hpc]; rfl)) rfl rfl rfl rfl hst
  | runs p n hpc =>
      have hst := h.stands p
      rw [hpc] at hst
      exact h.setPc (h.held.setPc (by rw [hpc]; rfl)) rfl rfl rfl rfl hst

theorem pidInv_run {as : List DaemonAct} (h : exec (step exlock) (.init init) as = some w) :
    PidInv exlock init w :=
  exec_always (fun _ _ _ hinv hs => hinv.step hs) (pidInv_init exlock init) h

/-- The bytes of a log that ends with one daemon are those of that daemon alone when
it is the only one. -/
theorem PidInv.alone_iff (h : PidInv exlock init w) {n : Nat}
    (hlast : w.log.getLast? = some (p, n)) :
    w.base ++ w.pids = (pidText p).take n ↔ w.base = [] ∧ w.log = [(p, n)] := by
  obtain ⟨before, hlog⟩ := List.getLast?_eq_some_iff.mp hlast
  have hpids : w.pids = (before.flatMap fun e => (pidText e.1).take e.2) ++ (pidText p).take n := by
    rw [World.pids, hlog, List.flatMap_append, List.flatMap_singleton]
  have hnil : (before.flatMap fun e => (pidText e.1).take e.2) = [] ↔ before = [] := by
    refine ⟨fun hflat => ?_, fun hb => by rw [hb, List.flatMap_nil]⟩
    cases before with
    | nil => rfl
    | cons e es =>
        -- every daemon of the log has written something
        obtain ⟨hpos, hlen⟩ := h.sizes e (by rw [hlog]; exact List.mem_cons_self)
        have htake := (List.append_eq_nil_iff.mp hflat).1
        have := congrArg List.length htake
        rw [List.length_take, List.length_nil] at this
        omega
  rw [hpids, ← List.append_assoc, List.append_left_eq_self, List.append_eq_nil_iff, hnil, hlog]
  exact and_congr_right fun _ =>
    ⟨fun hb => by rw [hb, List.nil_append], fun hb => by simpa using hb⟩

end

/-- **The pidfile of any number of daemons.**  Whatever they do and in whatever
order, at most one is past the lock.  With `O_EXLOCK` the file holds what the running
daemon has written; without it holds what was there before and all that was ever
written behind it, which is what the running daemon has written exactly when the file
was empty and nobody wrote before. -/
theorem pidfile_of_daemons (exlock : Bool) (init : List UInt8) (as : List DaemonAct) (w : World)
    (h : exec (step exlock) (.init init) as = some w) :
    (∀ p q, (w.pc p).holds = true → (w.pc q).holds = true → p = q) ∧
    (exlock = false → w.contents = init ++ w.pids) ∧
    ∀ p n, w.pc p = .running n →
      (exlock = true → w.contents = (pidText p).take n) ∧
      (exlock = false → (w.contents = (pidText p).take n ↔ init = [] ∧ w.log = [(p, n)])) := by
  have hinv := pidInv_run h
  refine ⟨fun p q hp hq => (hinv.held.only hp hq).symm, fun hex => ?_, fun p n hpc => ?_⟩
  · rw [hinv.contents, hinv.base hex]
  · obtain ⟨hlast, hexlock⟩ : w.log.getLast? = some (p, n) ∧
        (exlock = true → w.base = [] ∧ w.log = [(p, n)]) := by
      have hst := hinv.stands p
      rw [hpc] at hst
      exact hst
    have halone := hinv.alone_iff hlast
    rw [← hinv.contents] at halone
    refine ⟨fun hex => halone.mpr (hexlock hex), fun hex => ?_⟩
    rw [halone, hinv.base hex]

/-- Daemon 12 runs and ends, a third one fails to take its lock, and daemon 13 runs. -/
def twoDaemons : List DaemonAct :=
  [.openFile 12 true, .openFile 14 true, .flock 12, .flock 14, .lseek 12 true, .write 12 2,
    .fsync 12 true, .chdir 12 true, .exit 12,
    .openFile 13 true, .flock 13, .lseek 13 true, .write 13 2, .fsync 13 true, .chdir 13 true]

theorem pidfile_of_daemons_two : ∃ w, exec (step false) (.init []) twoDaemons = some w ∧
    w.pc 13 = .running 2 ∧ w.contents = CLib.ascii "1213" ∧ w.contents ≠ (pidText 13).take 2 := by
  have hrun : (exec (step false) (.init []) twoDaemons).map (fun w =>
      (w.pc 13, w.contents, w.log)) =
      some (.running 2, CLib.ascii "1213", [(12, 2), (13, 2)]) := by decide
  obtain ⟨w, hw, hobs⟩ := Option.map_eq_some_iff.mp hrun
  obtain ⟨hpc, hrest⟩ := Prod.mk.inj hobs
  obtain ⟨hcontents, hlog⟩ := Prod.mk.inj hrest
  refine ⟨w, hw, hpc, hcontents, fun heq => ?_⟩
  have honly := (((pidfile_of_daemons false [] twoDaemons w hw).2.2 13 2 hpc).2 rfl).mp heq
  rw [hlog] at honly
  exact nomatch honly.2

end MnDaemon
