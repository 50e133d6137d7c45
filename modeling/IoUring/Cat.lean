import Mathlib.Algebra.GroupWithZero.Nat
import Mathlib.Order.Basic
import IoUring.Base.Segments

/-!
# `cat`

The files are read and printed one after the other: a file into chunks of 64 bytes, with one
`readv` for all of them. What the system calls return for a file is in the model a value of
its own; the program waits for each of them before it goes on.
-/

namespace IoUring.Cat

abbrev Byte := UInt8

/-- The base of an `iovec` is an index of the buffer. -/
abbrev Iovec := Segment

/-- `CHUNK_SIZE`. -/
def chunkBytes : Nat := 64

/-- The number of chunks; the sum is one of `size_t`. -/
def chunks (sizeBytes chunkSize : Nat) : Nat :=
  (sizeBytes + chunkSize - 1) % 2 ^ 64 / chunkSize

/-- The calls of the generator in `make_iovecs_with_buf`, with the `offset` that it moves. -/
def generate (sizeBytes chunkSize : Nat) : Nat → Nat → List Iovec
  | 0, _ => []
  | n + 1, offset =>
      let iovLen := min (sizeBytes - offset) chunkSize
      ⟨offset, iovLen⟩ :: generate sizeBytes chunkSize n (offset + iovLen)

/-- `none` is a failed assertion. -/
def makeIovecsWithBuf (sizeBytes chunkSize : Nat) : Option (List Iovec × List Byte) :=
  if 0 < chunkSize then
    some (generate sizeBytes chunkSize (chunks sizeBytes chunkSize) 0, List.replicate sizeBytes 0)
  else none

/-- The bytes that go to `std::cout`. -/
def printToStdout (iovecs : List Iovec) (sizeBytes chunkSize : Nat) (buf : List Byte) :
    Option (List Byte) :=
  if 0 < chunkSize ∧ chunks sizeBytes chunkSize = iovecs.length then some (Segment.gather iovecs buf)
  else none

/-- `nofail<Comp>`; `none` is `std::terminate()`. -/
def nofail (comp : Int → Int → Bool) (ret : Int) : Option Int :=
  if comp ret 0 then none else some ret

/-- What the calls for a file return, and what `readv` reads: as many bytes as it returns,
and no more than the chunks have room for. -/
structure File where
  fd : Int
  fstat : Int
  stSize : Nat
  submit : Int
  waitCqe : Int
  res : Int
  data : List Byte
  stSize_lt : stSize < 2 ^ 63
  data_length : data.length = res.toNat
  data_le : data.length ≤ stSize

def getFileInfo (f : File) : Option (Int × Nat) := do
  let fd ← nofail (· < ·) f.fd
  let _ ← nofail (· < ·) f.fstat
  some (fd, f.stSize)

/-- The body of the loop in `main`. -/
def printFile (f : File) : Option (List Byte) := do
  let (_, size) ← getFileInfo f
  let (iovecs, buf) ← makeIovecsWithBuf size chunkBytes
  let _ ← nofail (· ≤ ·) f.submit
  let _ ← nofail (· < ·) f.waitCqe
  let res ← nofail (· < ·) f.res
  printToStdout iovecs res.toNat chunkBytes (Segment.scatter iovecs f.data buf)

/-- The process prints its usage, ends with 0, or is ended by `nofail` or an assertion. -/
inductive Exit where
  | usage
  | returned
  | terminated
  deriving DecidableEq

def loop : List File → List Byte → List Byte × Exit
  | [], out => (out, .returned)
  | f :: files, out =>
      match printFile f with
      | some bytes => loop files (out ++ bytes)
      | none => (out, .terminated)

/-- The files are those of `argv`. -/
def main : List File → List Byte × Exit
  | [] => ([], .usage)
  | f :: files => loop (f :: files) []

/-! ## The chunks of a file -/

variable {size chunk : Nat}

theorem chunks_eq (h : size < 2 ^ 63) : chunks size chunkBytes = (size + 63) / 64 := by
  rw [chunks, chunkBytes, Nat.mod_eq_of_lt (by omega)]
  rfl

theorem generate_length (n offset : Nat) : (generate size chunk n offset).length = n := by
  induction n generalizing offset with
  | zero => rfl
  | succ n ih => rw [generate, List.length_cons, ih]

/-- With enough chunks, the whole buffer is used. -/
theorem generate_covers {n offset : Nat} (hoffset : offset ≤ size) (hn : size ≤ offset + n * chunk) :
    Segment.Covers (generate size chunk n offset) offset size := by
  induction n generalizing offset with
  | zero =>
      have heq : offset = size := by omega
      exact heq
  | succ n ih =>
      rw [Nat.succ_mul] at hn
      refine ⟨rfl, ih (by omega) ?_⟩
      rcases Nat.le_total (size - offset) chunk with hle | hle
      · rw [Nat.min_eq_left hle]
        omega
      · rw [Nat.min_eq_right hle]
        omega

/-- With no more chunks than needed, none is empty, and none leaves the buffer. -/
theorem generate_bounds {n offset : Nat} (hchunk : 0 < chunk) (hn : offset + n * chunk < size + chunk)
    {g : Iovec} (hg : g ∈ generate size chunk n offset) :
    0 < g.len ∧ g.len ≤ chunk ∧ g.base + g.len ≤ size := by
  induction n generalizing offset with
  | zero => cases hg
  | succ n ih =>
      rw [Nat.succ_mul] at hn
      rcases List.mem_cons.mp hg with rfl | hg
      · exact ⟨by simp; omega, Nat.min_le_right _ _, by simp; omega⟩
      · cases n with
        | zero => cases hg
        | succ n =>
            rw [Nat.succ_mul] at hn
            refine ih ?_ hg
            rw [Nat.succ_mul, Nat.min_eq_right (by omega)]
            omega

/-- The chunks of a file are parts of the buffer, one behind the other, and make up all of it. -/
theorem makeIovecs_spec (h : size < 2 ^ 63) : ∃ iovecs,
    makeIovecsWithBuf size chunkBytes = some (iovecs, List.replicate size 0) ∧
      iovecs.length = (size + 63) / 64 ∧ Segment.Covers iovecs 0 size ∧
      ∀ g ∈ iovecs, 0 < g.len ∧ g.len ≤ chunkBytes ∧ g.base + g.len ≤ size := by
  refine ⟨generate size chunkBytes ((size + 63) / 64) 0, ?_, generate_length _ _, ?_, fun g hg => ?_⟩
  · rw [makeIovecsWithBuf, if_pos (by decide), chunks_eq h]
  · refine generate_covers (Nat.zero_le _) ?_
    rw [chunkBytes]
    omega
  · refine generate_bounds (by decide) ?_ hg
    rw [chunkBytes]
    omega

/-! ## Files -/

/-- The calls for the file succeed, and what was read has as many chunks as the file had. -/
structure File.Printed (f : File) : Prop where
  fd : 0 ≤ f.fd
  fstat : 0 ≤ f.fstat
  submit : 0 < f.submit
  waitCqe : 0 ≤ f.waitCqe
  res : 0 ≤ f.res
  chunks : (f.data.length + 63) / 64 = (f.stSize + 63) / 64

/-- What was read, with zero bytes in the place of what is missing. -/
def File.printed (f : File) : List Byte :=
  f.data ++ List.replicate (f.stSize - f.data.length) 0

theorem File.printed_whole {f : File} (h : f.data.length = f.stSize) : f.printed = f.data := by
  rw [File.printed, h, Nat.sub_self, List.replicate_zero, List.append_nil]

theorem nofail_lt {ret : Int} : nofail (· < ·) ret = if 0 ≤ ret then some ret else none := by
  by_cases h : 0 ≤ ret <;> simp [nofail, h]

theorem nofail_le {ret : Int} : nofail (· ≤ ·) ret = if 0 < ret then some ret else none := by
  by_cases h : 0 < ret <;> simp [nofail, h]

theorem printToStdout_eq {f : File} {iovecs : List Iovec} (hlength : iovecs.length = (f.stSize + 63) / 64)
    (hcovers : Segment.Covers iovecs 0 f.stSize) :
    printToStdout iovecs f.res.toNat chunkBytes
        (Segment.scatter iovecs f.data (List.replicate f.stSize 0)) =
      if (f.data.length + 63) / 64 = (f.stSize + 63) / 64 then some f.printed else none := by
  have hdata := f.data_le
  have hsize := f.stSize_lt
  rw [printToStdout, ← f.data_length, chunks_eq (by omega), hlength]
  rw [Segment.Covers.gather_scatter (by simpa using hcovers) (by simpa using hdata), List.drop_replicate]
  simp [chunkBytes, File.printed]

/-- A file is printed when its calls succeed and the assertion holds. -/
theorem printFile_some {f : File} {bytes : List Byte} :
    printFile f = some bytes ↔ f.Printed ∧ f.printed = bytes := by
  obtain ⟨iovecs, hmake, hlength, hcovers, -⟩ := makeIovecs_spec f.stSize_lt
  constructor
  · intro h
    simp only [printFile, getFileInfo, nofail_lt, nofail_le, Option.bind_eq_bind, Option.bind_eq_some_iff,
      Option.ite_none_right_eq_some, Option.some.injEq] at h
    obtain ⟨_, ⟨_, ⟨hfd, rfl⟩, _, ⟨hfstat, rfl⟩, rfl⟩, made, hmade, _, ⟨hsubmit, rfl⟩, _, ⟨hwait, rfl⟩,
      _, ⟨hres, rfl⟩, hprint⟩ := h
    obtain rfl := Option.some.inj (hmake.symm.trans hmade)
    rw [printToStdout_eq hlength hcovers, Option.ite_none_right_eq_some] at hprint
    exact ⟨⟨hfd, hfstat, hsubmit, hwait, hres, hprint.1⟩, Option.some.inj hprint.2⟩
  · rintro ⟨h, rfl⟩
    simp [printFile, getFileInfo, nofail_lt, nofail_le, hmake, h.fd, h.fstat, h.submit, h.waitCqe, h.res,
      printToStdout_eq hlength hcovers, h.chunks]

/-! ## Runs -/

theorem loop_spec (files : List File) (out : List Byte) : ∃ done rest, files = done ++ rest ∧
    (∀ f ∈ done, f.Printed) ∧ (∀ f ∈ rest.head?, ¬f.Printed) ∧
    loop files out = (out ++ done.flatMap File.printed, if rest.isEmpty then .returned else .terminated) := by
  induction files generalizing out with
  | nil => exact ⟨[], [], rfl, by simp, by simp, by simp [loop]⟩
  | cons f files ih =>
      by_cases hprinted : f.Printed
      · obtain ⟨done, rest, rfl, hdone, hrest, hloop⟩ := ih (out ++ f.printed)
        refine ⟨f :: done, rest, rfl, List.forall_mem_cons.mpr ⟨hprinted, hdone⟩, hrest, ?_⟩
        rw [loop, printFile_some.mpr ⟨hprinted, rfl⟩]
        simp only [hloop, List.flatMap_cons, List.append_assoc]
      · refine ⟨[], f :: files, rfl, by simp, by simpa using hprinted, ?_⟩
        have hnone : printFile f = none := Option.eq_none_iff_forall_ne_some.mpr fun bytes hbytes =>
          hprinted (printFile_some.mp hbytes).1
        rw [loop, hnone]
        simp

/-- The files are printed in their order, up to the first one that fails, and only then the process
does not end by itself. A file that was read as a whole is printed as it was read. -/
theorem files_printed (files : List File) : ∃ done rest, files = done ++ rest ∧
    (∀ f ∈ done, f.Printed) ∧ (∀ f ∈ rest.head?, ¬f.Printed) ∧
    (main files).1 = done.flatMap File.printed ∧
    ((main files).2 = .usage ↔ files = []) ∧ ((main files).2 = .terminated ↔ rest ≠ []) ∧
    ∀ f ∈ done, f.data.length = f.stSize → f.printed = f.data := by
  obtain ⟨done, rest, hfiles, hdone, hrest, hloop⟩ := loop_spec files []
  refine ⟨done, rest, hfiles, hdone, hrest, ?_, ?_, ?_, fun f _ => File.printed_whole⟩
  all_goals cases files with
    | nil =>
        obtain ⟨rfl, rfl⟩ := List.append_eq_nil_iff.mp hfiles.symm
        simp [main]
    | cons f files =>
        rw [main, hloop]
        cases rest <;> simp

/-- A byte is missing, and a zero byte is printed. -/
example : printFile ⟨3, 0, 3, 1, 0, 2, [104, 105], by decide, rfl, by decide⟩ = some [104, 105, 0] := by
  decide

end IoUring.Cat
