import Mathlib

/-!
# `zerorange` of the 386 back end

`zerorange(pp, p, off, cnt, ax)` appends after `p` the instructions that zero `cnt` bytes of
the stack frame at `off(SP)`. It zeroes `AX` first unless `*ax` says an earlier call already
did, then stores `AX` with one `MOVL` per word for at most four words, jumps into
`runtime·duffzero` for at most 128 words, and runs `REP STOSL` beyond that.

The instructions are `obj.Prog`s as `pp.Append` builds them. Their meaning is given by a small
386 machine: the registers the code names, byte memory, and the direction flag clear.
`runtime·duffzero` is 128 one-byte `STOSL`s followed by `RET`, so entering it at byte
`128 - n` runs `n` of them.

`exec_zerorange` says what the code does for every `off` and `cnt`: when `*ax` is set only if
`AX` holds zero, it zeroes `[SP+off, SP+off+zeroedLen cnt)` and no other byte, leaves `SP`
alone, and keeps that condition on `*ax`. For a count that is a multiple of the register size
that is exactly the range (`zerorange_zeroes`), and over any sequence of calls sharing `ax`
the code zeroes exactly the union of the ranges (`zeroranges_zeroes`). For other counts the
`MOVL` path rounds the range up and the two others round it down (`zerorange_unaligned`).
-/

namespace ReadGoCode.X86

/-- `types.RegSize` on 386. -/
def regSize : Int := 4

/-- The opcodes `zerorange` emits: `AMOVL`, `ALEAL`, `ADUFFZERO`, `AREP` and `ASTOSL`. -/
inductive As where
  | movl
  | leal
  | duffzero
  | rep
  | stosl
deriving DecidableEq

/-- The operand types `zerorange` uses: `TYPE_NONE`, `TYPE_CONST`, `TYPE_REG`, `TYPE_MEM` and
`TYPE_ADDR`. -/
inductive AddrType where
  | none
  | const
  | reg
  | mem
  | addr
deriving DecidableEq

/-- The registers `zerorange` names; `none` is the register `0`. -/
inductive Reg where
  | none
  | ax
  | cx
  | di
  | sp
deriving DecidableEq

/-- An `obj.Addr`: its type, register and offset. -/
structure Addr where
  type : AddrType
  reg : Reg
  offset : Int
deriving DecidableEq

/-- An `obj.Prog`: `As`, `From` and `To`. -/
structure Prog where
  op : As
  src : Addr
  dst : Addr
deriving DecidableEq

/-- The instruction `pp.Append(p, as, ftype, freg, foffset, ttype, treg, toffset)` appends. -/
def append (op : As) (ftype : AddrType) (freg : Reg) (foffset : Int) (ttype : AddrType)
    (treg : Reg) (toffset : Int) : Prog :=
  ⟨op, ⟨ftype, freg, foffset⟩, ⟨ttype, treg, toffset⟩⟩

/-- The loop `for i := int64(0); i < cnt; i += int64(types.RegSize)`, from `i`, with `fuel`
iterations at most: one `MOVL AX, off+i(SP)` per iteration. -/
def movLoop (off cnt : Int) : Nat → Int → List Prog
  | 0, _ => []
  | fuel + 1, i =>
      if i < cnt then
        append .movl .reg .ax 0 .mem .sp (off + i) :: movLoop off cnt fuel (i + regSize)
      else []

/-- `zerorange(pp, p, off, cnt, ax)`: the instructions it appends after `p`, and `*ax` after it.
The loop runs at most `cnt` times. Go's `/` truncates; `cnt` is positive where it divides. -/
def zerorange (off cnt : Int) (ax : Nat) : List Prog × Nat :=
  if cnt = 0 then ([], ax)
  else
    let pre := if ax = 0 then [append .movl .const .none 0 .reg .ax 0] else []
    let body :=
      if cnt ≤ 4 * regSize then movLoop off cnt cnt.toNat 0
      else if cnt ≤ 128 * regSize then
        [append .leal .mem .sp off .reg .di 0,
          append .duffzero .none .none 0 .addr .none (1 * (128 - cnt / regSize))]
      else
        [append .movl .const .none (cnt / regSize) .reg .cx 0,
          append .leal .mem .sp off .reg .di 0,
          append .rep .none .none 0 .none .none 0,
          append .stosl .none .none 0 .none .none 0]
    (pre ++ body, if ax = 0 then 1 else ax)

/-! ## The 386 machine -/

/-- The registers the code names and byte memory. Addresses do not wrap. -/
structure Machine where
  ax : Int
  cx : Int
  di : Int
  sp : Int
  mem : Int → UInt8

/-- Byte `k` of the 32-bit value `v`, little-endian. -/
def byteOf (v : Int) (k : Int) : UInt8 := UInt8.ofNat ((v % 2 ^ 32).toNat / 256 ^ k.toNat)

/-- Every byte of zero is zero. -/
@[simp] theorem byteOf_zero (k : Int) : byteOf 0 k = 0 := by simp [byteOf]

/-- Memory after a 32-bit store of `v` at `a`. -/
def store32 (mem : Int → UInt8) (a v : Int) : Int → UInt8 :=
  fun x => if a ≤ x ∧ x < a + 4 then byteOf v (x - a) else mem x

namespace Machine

/-- The value of a named register. -/
def get (m : Machine) : Reg → Option Int
  | .ax => some m.ax
  | .cx => some m.cx
  | .di => some m.di
  | .sp => some m.sp
  | .none => none

/-- The machine with a named register set. -/
def set (m : Machine) : Reg → Int → Option Machine
  | .ax, v => some { m with ax := v }
  | .cx, v => some { m with cx := v }
  | .di, v => some { m with di := v }
  | .sp, v => some { m with sp := v }
  | .none, _ => none

/-- `STOSL`: store `AX` at `DI` and advance `DI` by four. -/
def stosl (m : Machine) : Machine := { m with mem := store32 m.mem m.di m.ax, di := m.di + 4 }

/-- `n` `STOSL`s. -/
def stosN : Nat → Machine → Machine
  | 0, m => m
  | n + 1, m => stosN n m.stosl

/-- `REP STOSL`: `CX` `STOSL`s, leaving `CX` zero. -/
def repStosl (m : Machine) : Machine := { stosN m.cx.toNat m with cx := 0 }

/-- One instruction, or `none` for a form the code never emits or a jump outside
`runtime·duffzero`. -/
def step (m : Machine) (p : Prog) : Option Machine :=
  match p.op, p.src.type, p.dst.type with
  | .movl, .const, .reg => m.set p.dst.reg p.src.offset
  | .movl, .reg, .mem => do
      let v ← m.get p.src.reg
      let base ← m.get p.dst.reg
      some { m with mem := store32 m.mem (base + p.dst.offset) v }
  | .leal, .mem, .reg => do
      let base ← m.get p.src.reg
      m.set p.dst.reg (base + p.src.offset)
  | .duffzero, _, .addr =>
      if 0 ≤ p.dst.offset ∧ p.dst.offset ≤ 128 then some (stosN (128 - p.dst.offset).toNat m)
      else none
  | .stosl, _, _ => some m.stosl
  | _, _, _ => none

end Machine

/-- The instructions run in order; `REP` repeats the `STOSL` after it. -/
def exec : List Prog → Machine → Option Machine
  | [], m => some m
  | [p], m => if p.op = .rep then none else m.step p
  | p :: q :: ps, m =>
      if p.op = .rep then (if q.op = .stosl then exec ps m.repStosl else none)
      else (m.step p).bind (exec (q :: ps))

/-! ## What each part of the code does -/

/-- `m'` is `m` with the bytes of `[lo, hi)` zeroed and no other byte changed. -/
def Zeroes (m m' : Machine) (lo hi : Int) : Prop :=
  ∀ x, m'.mem x = if lo ≤ x ∧ x < hi then 0 else m.mem x

/-- Zeroing two adjacent ranges in turn zeroes their union. -/
theorem Zeroes.trans {m₁ m₂ m₃ : Machine} {lo mid hi : Int} (h₁ : Zeroes m₁ m₂ lo mid)
    (h₂ : Zeroes m₂ m₃ mid hi) (hlo : lo ≤ mid) (hhi : mid ≤ hi) : Zeroes m₁ m₃ lo hi := by
  intro x
  rw [h₂ x, h₁ x]
  by_cases hx₁ : lo ≤ x ∧ x < mid
  · rw [if_pos hx₁, if_pos (by omega : lo ≤ x ∧ x < hi)]; split <;> rfl
  · rw [if_neg hx₁]
    by_cases hx₂ : mid ≤ x ∧ x < hi
    · rw [if_pos hx₂, if_pos (by omega : lo ≤ x ∧ x < hi)]
    · rw [if_neg hx₂, if_neg (by omega : ¬(lo ≤ x ∧ x < hi))]

/-- Zeroing an empty range changes nothing. -/
theorem zeroes_empty (m : Machine) (lo : Int) : Zeroes m m lo lo := fun x => by
  rw [if_neg (by omega)]

/-- A store of zero zeroes four bytes. -/
theorem zeroes_of_store {m m' : Machine} {a : Int} (h : m'.mem = store32 m.mem a 0) :
    Zeroes m m' a (a + 4) := fun x => by
  simp only [h, store32]
  split <;> simp

/-- With `AX` zero, `n` `STOSL`s zero `4n` bytes from `DI` and change only `DI`. -/
theorem stosN_spec : ∀ (n : Nat) (m : Machine), m.ax = 0 →
    Zeroes m (Machine.stosN n m) m.di (m.di + 4 * n) ∧ (Machine.stosN n m).di = m.di + 4 * n ∧
      (Machine.stosN n m).ax = m.ax ∧ (Machine.stosN n m).cx = m.cx ∧
      (Machine.stosN n m).sp = m.sp
  | 0, m, _ => ⟨by simpa using zeroes_empty m m.di, by simp [Machine.stosN], rfl, rfl, rfl⟩
  | n + 1, m, h => by
      obtain ⟨hz, hdi, hax, hcx, hsp⟩ := stosN_spec n m.stosl h
      have hend : m.stosl.di + 4 * (n : Int) = m.di + 4 * ((n + 1 : Nat) : Int) := by
        simp only [Machine.stosl]; omega
      refine ⟨hend ▸ (zeroes_of_store (by simp [Machine.stosl, h])).trans hz (by omega)
        (by simp only [Machine.stosl]; omega), by rw [Machine.stosN, hdi, hend], hax, hcx, hsp⟩

/-- An instruction other than `REP` runs by `step`. -/
theorem exec_cons {p : Prog} (hp : p.op ≠ .rep) (ps : List Prog) (m : Machine) :
    exec (p :: ps) m = (m.step p).bind (exec ps) := by
  rcases ps with _ | ⟨q, ps⟩
  · rw [exec, if_neg hp]; cases m.step p <;> rfl
  · rw [exec, if_neg hp]

/-- `REP STOSL` runs by `repStosl`. -/
theorem exec_rep {p q : Prog} (hp : p.op = .rep) (hq : q.op = .stosl) (ps : List Prog)
    (m : Machine) : exec (p :: q :: ps) m = exec ps m.repStosl := by
  rw [exec, if_pos hp, if_pos hq]

/-- Running one program after another runs their concatenation. -/
theorem exec_append (qs : List Prog) : ∀ (ps : List Prog) (m m₁ : Machine),
    exec ps m = some m₁ → exec (ps ++ qs) m = exec qs m₁
  | [], _, _, h => by cases h; rfl
  | [p], m, m₁, h => by
      by_cases hp : p.op = .rep
      · rw [exec, if_pos hp] at h; cases h
      · rw [exec, if_neg hp] at h
        rw [List.singleton_append, exec_cons hp, h]; rfl
  | p :: q :: ps, m, m₁, h => by
      by_cases hp : p.op = .rep
      · by_cases hq : q.op = .stosl
        · rw [exec_rep hp hq] at h
          rw [List.cons_append, List.cons_append, exec_rep hp hq]
          exact exec_append qs ps _ _ h
        · rw [exec, if_pos hp, if_neg hq] at h; cases h
      · rw [exec_cons hp] at h
        rw [List.cons_append, exec_cons hp]
        cases hs : m.step p with
        | none => rw [hs] at h; cases h
        | some m₂ =>
            rw [hs, Option.some_bind] at h
            exact exec_append qs (q :: ps) m₂ m₁ h

/-- `MOVL AX, a(SP)` stores `AX` at `SP + a`. -/
theorem step_movStore (m : Machine) (a : Int) :
    m.step (append .movl .reg .ax 0 .mem .sp a) =
      some { m with mem := store32 m.mem (m.sp + a) m.ax } := rfl

/-- The bytes from `i` up to `cnt` that the `MOVL` loop covers: whole words, rounded up. -/
def roundUp (n : Int) : Int := if n ≤ 0 then 0 else 4 * ((n + 3) / 4)

/-- With `AX` zero and fuel for every word, the `MOVL` loop from `i` zeroes the words of
`[off+i, off+cnt)` from `SP`, rounded up, and changes no register. -/
theorem movLoop_spec (off cnt : Int) : ∀ (fuel : Nat) (i : Int) (m : Machine), m.ax = 0 →
    cnt - i ≤ 4 * fuel →
    ∃ m', exec (movLoop off cnt fuel i) m = some m' ∧
      Zeroes m m' (m.sp + off + i) (m.sp + off + i + roundUp (cnt - i)) ∧
      m'.ax = m.ax ∧ m'.cx = m.cx ∧ m'.di = m.di ∧ m'.sp = m.sp
  | 0, i, m, _, hfuel => by
      refine ⟨m, rfl, ?_, rfl, rfl, rfl, rfl⟩
      simpa [roundUp, show cnt - i ≤ 0 by omega] using zeroes_empty m (m.sp + off + i)
  | fuel + 1, i, m, hax, hfuel => by
      by_cases hi : i < cnt
      · obtain ⟨m', h, hz, hax', hcx, hdi, hsp⟩ := movLoop_spec off cnt fuel (i + regSize)
          { m with mem := store32 m.mem (m.sp + (off + i)) m.ax } hax
          (by simp only [regSize]; omega)
        refine ⟨m', ?_, ?_, hax', hcx, hdi, hsp⟩
        · rw [movLoop, if_pos hi, exec_cons, step_movStore]
          · exact h
          · simp [append]
        have hstore : Zeroes m { m with mem := store32 m.mem (m.sp + (off + i)) m.ax }
            (m.sp + (off + i)) (m.sp + (off + i) + 4) := zeroes_of_store (by simp [hax])
        have hround : roundUp (cnt - i) = 4 + roundUp (cnt - (i + regSize)) := by
          simp only [roundUp, regSize]; split_ifs <;> omega
        rw [hround, ← Int.add_assoc]
        simp only [regSize, ← Int.add_assoc] at hz hstore ⊢
        refine hstore.trans (by simpa only [Int.add_assoc] using hz) (by omega) ?_
        simp only [roundUp]; split <;> omega
      · refine ⟨m, by rw [movLoop, if_neg hi]; rfl, ?_, rfl, rfl, rfl, rfl⟩
        simpa [roundUp, show cnt - i ≤ 0 by omega] using zeroes_empty m (m.sp + off + i)

/-- `LEAL off(SP), DI`. -/
theorem step_leaDI (m : Machine) (off : Int) :
    m.step (append .leal .mem .sp off .reg .di 0) = some { m with di := m.sp + off } := rfl

/-- `MOVL $v, CX`. -/
theorem step_movCX (m : Machine) (v : Int) :
    m.step (append .movl .const .none v .reg .cx 0) = some { m with cx := v } := rfl

/-- Entering `runtime·duffzero` at byte `128 - n` runs `n` `STOSL`s. -/
theorem step_duffzero (m : Machine) {n : Int} (h₀ : 0 ≤ n) (h₁ : n ≤ 128) :
    m.step (append .duffzero .none .none 0 .addr .none (1 * (128 - n))) =
      some (Machine.stosN n.toNat m) := by
  simp only [Machine.step, append]
  rw [if_pos (by omega), show 128 - 1 * (128 - n) = n by omega]

/-- Zeroing is about memory alone. -/
theorem Zeroes.of_mem_eq {m m₁ m' : Machine} {lo hi : Int} (h : m₁.mem = m.mem)
    (hz : Zeroes m₁ m' lo hi) : Zeroes m m' lo hi := fun x => by rw [hz x, h]

/-- The bytes from `off(SP)` that `zerorange` zeroes for `cnt`: whole words, rounded up by the
`MOVL` loop and down by `DUFFZERO` and `REP STOSL`. -/
def zeroedLen (cnt : Int) : Int :=
  if cnt ≤ 4 * regSize then roundUp cnt else regSize * (cnt / regSize)

/-- Every call of `zerorange`, when `*ax` is set only if `AX` holds zero: the code it appends
runs, zeroes `zeroedLen cnt` bytes from `SP+off` and no other byte, leaves `SP` alone, and
after it `*ax` is again set only if `AX` holds zero. -/
theorem exec_zerorange (off cnt : Int) (ax : Nat) (m : Machine) (hax : ax ≠ 0 → m.ax = 0) :
    ∃ m', exec (zerorange off cnt ax).1 m = some m' ∧
      Zeroes m m' (m.sp + off) (m.sp + off + zeroedLen cnt) ∧ m'.sp = m.sp ∧
      ((zerorange off cnt ax).2 ≠ 0 → m'.ax = 0) := by
  unfold zerorange
  split
  · next h0 =>
      subst h0
      exact ⟨m, rfl, by simpa [zeroedLen, roundUp] using zeroes_empty m (m.sp + off), rfl, hax⟩
  · next h0 =>
      obtain ⟨m₀, hpre, hax₀, hsp₀, hmem₀⟩ : ∃ m₀,
          exec (if ax = 0 then [append .movl .const .none 0 .reg .ax 0] else []) m = some m₀ ∧
            m₀.ax = 0 ∧ m₀.sp = m.sp ∧ m₀.mem = m.mem := by
        split
        · exact ⟨{ m with ax := 0 }, rfl, rfl, rfl, rfl⟩
        · next hax0 => exact ⟨m, rfl, hax hax0, rfl, rfl⟩
      suffices ∃ m', exec (if cnt ≤ 4 * regSize then movLoop off cnt cnt.toNat 0
          else if cnt ≤ 128 * regSize then
            [append .leal .mem .sp off .reg .di 0,
              append .duffzero .none .none 0 .addr .none (1 * (128 - cnt / regSize))]
          else
            [append .movl .const .none (cnt / regSize) .reg .cx 0,
              append .leal .mem .sp off .reg .di 0,
              append .rep .none .none 0 .none .none 0,
              append .stosl .none .none 0 .none .none 0]) m₀ = some m' ∧
            Zeroes m m' (m.sp + off) (m.sp + off + zeroedLen cnt) ∧ m'.sp = m.sp ∧ m'.ax = 0 by
        obtain ⟨m', h, hz, hsp, hax'⟩ := this
        exact ⟨m', by rw [exec_append _ _ _ _ hpre]; exact h, hz, hsp, fun _ => hax'⟩
      -- past four words, `DUFFZERO` and `REP STOSL` zero `cnt / 4` whole words
      have hend : ¬cnt ≤ 4 * regSize →
          4 * ((cnt / regSize).toNat : Int) = regSize * (cnt / regSize) := by
        simp only [regSize]; omega
      split_ifs with h₁ h₂
      · -- at most four words: one `MOVL` each
        obtain ⟨m', h, hz, hax', -, -, hsp⟩ :=
          movLoop_spec off cnt cnt.toNat 0 m₀ hax₀ (by simp only [regSize] at h₁; omega)
        refine ⟨m', h, fun x => ?_, hsp.trans hsp₀, hax'.trans hax₀⟩
        rw [hz x, hmem₀, hsp₀, zeroedLen, if_pos h₁]
        simp only [Int.add_zero, Int.sub_zero]
      · -- at most 128 words: `DUFFZERO` runs `cnt / 4` `STOSL`s
        have hq : 4 ≤ cnt / regSize ∧ cnt / regSize ≤ 128 := by simp only [regSize] at *; omega
        obtain ⟨hz, -, hax', -, hsp⟩ :=
          stosN_spec (cnt / regSize).toNat { m₀ with di := m₀.sp + off } hax₀
        refine ⟨_, ?_, ?_, hsp.trans hsp₀, hax'.trans hax₀⟩
        · rw [exec_cons _ _ _, step_leaDI, Option.some_bind, exec_cons _ _ _,
            step_duffzero _ (by omega) (by omega), Option.some_bind]
          · rfl
          all_goals simp [append]
        · rw [zeroedLen, if_neg h₁]
          simpa only [hsp₀, hend h₁] using hz.of_mem_eq hmem₀
      · -- beyond: `REP STOSL` with `CX = cnt / 4`
        have hq : 0 ≤ cnt / regSize := by simp only [regSize] at *; omega
        obtain ⟨hz, -, hax', -, hsp⟩ :=
          stosN_spec (cnt / regSize).toNat { m₀ with cx := cnt / regSize, di := m₀.sp + off } hax₀
        refine ⟨Machine.repStosl { m₀ with cx := cnt / regSize, di := m₀.sp + off }, ?_, ?_,
          hsp.trans hsp₀, hax'.trans hax₀⟩
        · rw [exec_cons _ _ _, step_movCX, Option.some_bind, exec_cons _ _ _, step_leaDI,
            Option.some_bind, exec_rep (by simp [append]) (by simp [append])]
          · rfl
          all_goals simp [append]
        · rw [zeroedLen, if_neg h₁]
          simpa only [hsp₀, hend h₁] using hz.of_mem_eq hmem₀

/-- For a count that is a multiple of the register size, `zerorange` zeroes exactly `cnt`
bytes. -/
theorem zeroedLen_of_aligned {cnt : Int} (h₀ : 0 ≤ cnt) (h : cnt % regSize = 0) :
    zeroedLen cnt = cnt := by
  simp only [zeroedLen, roundUp, regSize] at h ⊢
  split_ifs <;> omega

/-! ## Every sequence of calls -/

/-- Calls of `zerorange` one after another, each appending after the last instruction of the
one before, all sharing `ax`: the instructions appended and `*ax` after them. -/
def zeroranges : List (Int × Int) → Nat → List Prog × Nat
  | [], ax => ([], ax)
  | (off, cnt) :: rs, ax =>
      let r := zerorange off cnt ax
      let rest := zeroranges rs r.2
      (r.1 ++ rest.1, rest.2)

/-- Every sequence of `zerorange` calls that share `ax`, from an `*ax` set only if `AX` holds
zero (as `0` is), each for a count that is a non-negative multiple of the register size: the
code they append runs, zeroes every byte of every range `[SP+off, SP+off+cnt)`, changes no
other byte, and leaves `SP` alone. The `MOVL $0, AX` that only the first call emits serves
them all, since no instruction the others emit writes `AX`. -/
theorem zeroranges_zeroes : ∀ (rs : List (Int × Int)) (ax : Nat) (m : Machine),
    (ax ≠ 0 → m.ax = 0) → (∀ r ∈ rs, 0 ≤ r.2 ∧ r.2 % regSize = 0) →
    ∃ m', exec (zeroranges rs ax).1 m = some m' ∧ m'.sp = m.sp ∧
      ∀ x, m'.mem x = if ∃ r ∈ rs, m.sp + r.1 ≤ x ∧ x < m.sp + r.1 + r.2 then 0 else m.mem x
  | [], ax, m, _, _ => ⟨m, rfl, rfl, fun x => by simp⟩
  | (off, cnt) :: rs, ax, m, hax, hrs => by
      obtain ⟨h₀, hal⟩ := hrs (off, cnt) (List.mem_cons_self _ _)
      obtain ⟨m₁, h₁, hz, hsp₁, hax₁⟩ := exec_zerorange off cnt ax m hax
      rw [zeroedLen_of_aligned h₀ hal] at hz
      obtain ⟨m', h', hsp', hmem'⟩ := zeroranges_zeroes rs _ m₁ hax₁
        fun r hr => hrs r (List.mem_cons_of_mem _ hr)
      refine ⟨m', by simp only [zeroranges]; rw [exec_append _ _ _ _ h₁, h'], hsp'.trans hsp₁,
        fun x => ?_⟩
      rw [hmem', hz x, hsp₁]
      simp only [List.exists_mem_cons_iff]
      by_cases hx : m.sp + off ≤ x ∧ x < m.sp + off + cnt
      · simp [hx]
      · simp only [hx, false_or, if_false]

/-- Three ranges zeroed by `MOVL`s, `DUFFZERO` and `REP STOSL` in turn. -/
theorem zeroranges_three :
    ((0 : Nat) ≠ 0 → (⟨5, 0, 0, 1000, fun _ => 7⟩ : Machine).ax = 0) ∧
    (∀ r ∈ [((0 : Int), (8 : Int)), (16, 64), (100, 1024)], 0 ≤ r.2 ∧ r.2 % regSize = 0) ∧
    ∃ m', exec (zeroranges [(0, 8), (16, 64), (100, 1024)] 0).1 ⟨5, 0, 0, 1000, fun _ => 7⟩ =
        some m' ∧ m'.sp = 1000 ∧
      ∀ x, m'.mem x = if ∃ r ∈ [((0 : Int), (8 : Int)), (16, 64), (100, 1024)],
        1000 + r.1 ≤ x ∧ x < 1000 + r.1 + r.2 then 0 else 7 :=
  ⟨by decide, by decide, zeroranges_zeroes _ 0 ⟨5, 0, 0, 1000, fun _ => 7⟩ (by decide) (by decide)⟩

/-- For a count that is not a multiple of the register size, the `MOVL` loop zeroes the byte
just past the range, while `DUFFZERO` and `REP STOSL` leave the last byte of the range as it
was. -/
theorem zerorange_unaligned (off cnt : Int) (ax : Nat) (m : Machine) (hax : ax ≠ 0 → m.ax = 0)
    (h₀ : 0 < cnt) (h : cnt % regSize ≠ 0) :
    ∃ m', exec (zerorange off cnt ax).1 m = some m' ∧
      (cnt ≤ 4 * regSize → m'.mem (m.sp + off + cnt) = 0) ∧
      (4 * regSize < cnt → m'.mem (m.sp + off + cnt - 1) = m.mem (m.sp + off + cnt - 1)) := by
  obtain ⟨m', hexec, hz, -⟩ := exec_zerorange off cnt ax m hax
  refine ⟨m', hexec, fun hle => ?_, fun hlt => ?_⟩
  · rw [hz, if_pos]
    simp only [zeroedLen, roundUp, regSize] at hle h ⊢
    rw [if_pos hle, if_neg (by omega)]
    omega
  · rw [hz, if_neg]
    simp only [zeroedLen, regSize] at hlt h ⊢
    rw [if_neg (by omega)]
    omega

/-- `MOVL`s for six bytes zero eight; `REP STOSL` for 1026 bytes leaves the last two. -/
theorem zerorange_unaligned_six :
    ((0 : Nat) ≠ 0 → (⟨5, 0, 0, 1000, fun _ => 7⟩ : Machine).ax = 0) ∧ (0 : Int) < 6 ∧
      (6 : Int) % regSize ≠ 0 ∧
    ∃ m', exec (zerorange 0 6 0).1 ⟨5, 0, 0, 1000, fun _ => 7⟩ = some m' ∧
      ((6 : Int) ≤ 4 * regSize → m'.mem (1000 + 0 + 6) = 0) ∧
      (4 * regSize < 6 → m'.mem (1000 + 0 + 6 - 1) = 7) :=
  ⟨by decide, by decide, by decide,
    zerorange_unaligned 0 6 0 ⟨5, 0, 0, 1000, fun _ => 7⟩ (by decide) (by decide) (by decide)⟩

end ReadGoCode.X86
