import Triad.Proofs.Machine

/-!
The assembly of an instruction does what the instruction says: its destination gets the value, every
other slot and variable keeps its own, and so do `bx`, `bp`, `sp` and the stack. The shorter forms
give what the plain ones give.
-/

namespace Triad

/-- Words of 16 bits, in two's complement; the quotient is cut off towards zero. -/
def Arithmetic.words : Arithmetic Asm.Word where
  ofInt := BitVec.ofInt 16
  neg := fun x => -x
  apply := fun op x y =>
    match op with
    | .add => x + y
    | .sub => x - y
    | .mul => x * y
    | .div => BitVec.ofInt 16 (x.toInt.tdiv y.toInt)
    | .or => x ||| y
    | .and => x &&& y

/-- What assembly can name: whole numbers, slots, variables that no register is called like, and the
accumulator. -/
def Operand.IsAddressable : Operand → Prop
  | literal text => (wholeNumber? text).isSome = true
  | global name => Asm.Register.ofName? name = none
  | _ => True

/-- A place that can be written to. -/
def Operand.IsPlace (o : Operand) : Prop := o.IsAddressable ∧ o.isLiteral = false

namespace Asm

open Arithmetic

/-- The part of a machine that three-address code knows. -/
def Machine.store (m : Machine) : Store Word := ⟨m.slots, m.globals, m.ax⟩

def Machine.put (m : Machine) (v : Word) : Operand → Machine
  | .literal _ => m
  | .frame offset => m.setSlot v offset
  | .global name => m.setGlobal v name
  | .accumulator => { m with ax := v }

/-- Two states that differ in `ax` and `dx` at most. -/
structure Machine.Agrees (m m' : Machine) : Prop where
  slots : m'.slots = m.slots
  globals : m'.globals = m.globals
  bx : m'.bx = m.bx
  bp : m'.bp = m.bp
  sp : m'.sp = m.sp
  stack : m'.stack = m.stack

/-- From `m` to `m'` the destination gets a value, and nothing else changes but `ax` and `dx`. -/
structure Machine.Gets (m m' : Machine) (dest : Operand) (v : Word) : Prop where
  value : dest.eval words m'.store = some v
  slots : ∀ offset, Operand.frame offset ≠ dest → m'.slots offset = m.slots offset
  globals : ∀ name, Operand.global name ≠ dest → m'.globals name = m.globals name
  bx : m'.bx = m.bx
  bp : m'.bp = m.bp
  sp : m'.sp = m.sp
  stack : m'.stack = m.stack

theorem agrees_ax (m : Machine) (x : Word) : m.Agrees { m with ax := x } :=
  ⟨rfl, rfl, rfl, rfl, rfl, rfl⟩

theorem agrees_ax_dx (m : Machine) (x y : Word) : m.Agrees { m with ax := x, dx := y } :=
  ⟨rfl, rfl, rfl, rfl, rfl, rfl⟩

theorem gets_self (m : Machine) {dest : Operand} {v : Word}
    (h : dest.eval words m.store = some v) : m.Gets m dest v :=
  ⟨h, fun _ _ => rfl, fun _ _ => rfl, rfl, rfl, rfl, rfl⟩

theorem gets_put {m m' : Machine} {dest : Operand} (h : m.Agrees m') (hd : dest.isLiteral = false)
    (v : Word) : m.Gets (m'.put v dest) dest v := by
  cases dest with
  | literal text => cases hd
  | frame offset =>
    refine ⟨by simp [Machine.put, Machine.setSlot, Machine.store, Operand.eval], ?_, ?_,
      h.bx, h.bp, h.sp, h.stack⟩
    · intro o ho
      have hne : o ≠ offset := fun heq => ho (by rw [heq])
      simp [Machine.put, Machine.setSlot, hne, h.slots]
    · intro n _
      simp [Machine.put, Machine.setSlot, h.globals]
  | global name =>
    refine ⟨by simp [Machine.put, Machine.setGlobal, Machine.store, Operand.eval], ?_, ?_,
      h.bx, h.bp, h.sp, h.stack⟩
    · intro o _
      simp [Machine.put, Machine.setGlobal, h.slots]
    · intro n hn
      have hne : n ≠ name := fun heq => hn (by rw [heq])
      simp [Machine.put, Machine.setGlobal, hne, h.globals]
  | accumulator =>
    refine ⟨rfl, ?_, ?_, h.bx, h.bp, h.sp, h.stack⟩
    · intro o _
      simp [Machine.put, h.slots]
    · intro n _
      simp [Machine.put, h.globals]

/-! ## Single instructions -/

theorem ofLiteral_of_wholeNumber {text : String} {v : Int} (h : wholeNumber? text = some v) :
    Immediate.ofLiteral text = .verbatim text := by
  obtain ⟨negative, digits, hsplit, _, hall, _⟩ := splitSign_of_wholeNumber h
  have hdot : '.' ∉ digits := fun hmem => by simpa [Text.isDigit] using hall '.' hmem
  have hnot : text.toList.contains '.' = false := by
    unfold Binary64.splitSign at hsplit
    split at hsplit <;> cases hsplit <;> simp_all
  unfold Immediate.ofLiteral
  rw [hnot]
  rfl

theorem read_address {m : Machine} {o : Operand} (h : o.IsAddressable) :
    (address o).read m = o.eval words m.store := by
  cases o with
  | literal text =>
    obtain ⟨v, hv⟩ := Option.isSome_iff_exists.mp h
    simp [address, Arg.read, ofLiteral_of_wholeNumber hv, Immediate.word?, Operand.eval, words]
  | frame offset => rfl
  | global name => simp only [address, Arg.read, show Register.ofName? name = none from h]; rfl
  | accumulator => rfl

theorem read_sizedAddress {m : Machine} {o : Operand} (h : o.IsAddressable) :
    (sizedAddress o).read m = o.eval words m.store := by
  cases o with
  | frame offset => rfl
  | _ => exact read_address h

theorem write_address {m : Machine} {o : Operand} (h : o.IsPlace) (v : Word) :
    (address o).write m v = some (m.put v o) := by
  obtain ⟨h, hl⟩ := h
  cases o with
  | literal text => cases hl
  | frame offset => rfl
  | global name => simp only [address, Arg.write, show Register.ofName? name = none from h]; rfl
  | accumulator => rfl

theorem write_sizedAddress {m : Machine} {o : Operand} (h : o.IsPlace) (v : Word) :
    (sizedAddress o).write m v = some (m.put v o) := by
  cases o with
  | frame offset => rfl
  | _ => exact write_address h v

theorem hasWidth_sizedAddress {o : Operand} (h : o.IsPlace) : (sizedAddress o).hasWidth = true := by
  cases o with
  | literal text => cases h.2
  | _ => rfl

variable {m : Machine} {o dest : Operand} {v : Word}

/-- An operation of a register with an operand. -/
theorem execTwo_reg (r : Register) (f : Word → Word → Word) (x : Word) (m' : Machine)
    (hx : m.register r = some x) (hm' : m.setRegister (f x v) r = some m')
    (h : o.IsAddressable) (hv : o.eval words m.store = some v) :
    Op.execTwo m f (.reg r) (address o) = some m' := by
  have hfit : (Arg.reg r).fit (address o) = true := by simp [Arg.fit, Arg.isMemory, Arg.hasWidth]
  simp only [Op.execTwo, hfit, ↓reduceIte, read_address h, hv]
  simp [Arg.read, hx, Arg.write, hm']

theorem exec_load (h : o.IsAddressable) (hv : o.eval words m.store = some v) :
    (Op.mov (.reg .ax) (address o)).exec m = some { m with ax := v } :=
  execTwo_reg .ax _ m.ax _ rfl rfl h hv

theorem eval_place (m : Machine) (h : dest.IsPlace) : ∃ x, dest.eval words m.store = some x := by
  obtain ⟨_, hl⟩ := h
  cases dest with
  | literal text => cases hl
  | _ => exact ⟨_, rfl⟩

theorem exec_store (h : dest.IsPlace) :
    (Op.mov (address dest) (.reg .ax)).exec m = some (m.put m.ax dest) := by
  have hfit : (address dest).fit (.reg .ax) = true := by simp [Arg.fit, Arg.isMemory, Arg.hasWidth]
  obtain ⟨x, hx⟩ := eval_place m h
  simp only [Op.exec, Op.execTwo, hfit, ↓reduceIte, read_address h.1, hx]
  simp [Arg.read, Machine.register, write_address h]

theorem exec_clear (h : dest.IsPlace) :
    (Op.mov (sizedAddress dest) (.number 0)).exec m = some (m.put 0 dest) := by
  have hfit : (sizedAddress dest).fit (.number 0) = true := by
    simp [Arg.fit, Arg.isMemory, hasWidth_sizedAddress h]
  obtain ⟨x, hx⟩ := eval_place m h
  simp only [Op.exec, Op.execTwo, hfit, ↓reduceIte, read_sizedAddress h.1, hx]
  simp [Arg.read, write_sizedAddress h]

theorem execOne_place (f : Word → Word) (h : dest.IsPlace) (hv : dest.eval words m.store = some v) :
    Op.execOne m f (sizedAddress dest) = some (m.put (f v) dest) := by
  simp only [Op.execOne, hasWidth_sizedAddress h, ↓reduceIte, read_sizedAddress h.1, hv]
  simp [write_sizedAddress h]

/-- Only the accumulator is seen through a change of `ax`. -/
theorem eval_ax (m : Machine) (x : Word) (h : o ≠ .accumulator) :
    o.eval words { m with ax := x : Machine }.store = o.eval words m.store := by
  cases o with
  | accumulator => exact absurd rfl h
  | _ => rfl

/-! ## Moves and steps -/

theorem moveOps_gets (hd : dest.IsPlace) (h : o.IsAddressable)
    (hv : o.eval words m.store = some v) :
    ∃ m', Op.execAll m (moveOps dest o) = some m' ∧ m.Gets m' dest v := by
  unfold moveOps
  split
  · rename_i heq
    exact ⟨m, rfl, gets_self m (heq ▸ hv)⟩
  split
  · rename_i heq
    subst heq
    refine ⟨m.put v .accumulator, ?_, gets_put (agrees_ax m m.ax) hd.2 v⟩
    simp [Op.execAll, exec_load h hv, Machine.put]
  split
  · rename_i heq
    subst heq
    cases hv
    refine ⟨m.put m.ax dest, ?_, gets_put (agrees_ax m m.ax) hd.2 _⟩
    simp [Op.execAll, exec_store hd]
  · refine ⟨_, ?_, gets_put (agrees_ax m v) hd.2 v⟩
    simp [Op.execAll, exec_load h hv, exec_store hd]

theorem clearOps_gets (hd : dest.IsPlace) :
    ∃ m', Op.execAll m (clearOps dest) = some m' ∧ m.Gets m' dest 0 := by
  refine ⟨m.put 0 dest, ?_, gets_put (agrees_ax m m.ax) hd.2 0⟩
  simp [Op.execAll, clearOps, exec_clear hd]

/-- A change of `ax` between a load and a store. -/
theorem throughAx_gets (op : Arg → Op) (f : Word → Word)
    (hop : ∀ (m : Machine) (a : Arg), (op a).exec m = Op.execOne m f a)
    (hd : dest.IsPlace) (h : o.IsAddressable) (hv : o.eval words m.store = some v) :
    ∃ m', Op.execAll m [.mov (.reg .ax) (address o), op (.reg .ax),
      .mov (address dest) (.reg .ax)] = some m' ∧ m.Gets m' dest (f v) := by
  refine ⟨_, ?_, gets_put (agrees_ax m (f v)) hd.2 (f v)⟩
  simp [Op.execAll, exec_load h hv, hop, Op.execOne, Arg.hasWidth, Arg.read, Arg.write,
    Machine.register, Machine.setRegister, exec_store hd]

theorem negateOps_gets (hd : dest.IsPlace) (h : o.IsAddressable)
    (hv : o.eval words m.store = some v) :
    ∃ m', Op.execAll m (negateOps dest o) = some m' ∧ m.Gets m' dest (-v) :=
  throughAx_gets .neg _ (fun _ _ => rfl) hd h hv

/-! ## Two operands -/

variable {left right : Operand} {x y : Word}

theorem directOps_gets (op : Arg → Arg → Op) (f : Word → Word → Word)
    (hop : ∀ (m : Machine) (a b : Arg), (op a b).exec m = Op.execTwo m f a b)
    (hd : dest.IsPlace) (hl : left.IsAddressable) (hr : right.IsAddressable)
    (hne : right ≠ .accumulator) (hx : left.eval words m.store = some x)
    (hy : right.eval words m.store = some y) :
    ∃ m', Op.execAll m (directOps op dest left right) = some m' ∧ m.Gets m' dest (f x y) := by
  have hy' : right.eval words { m with ax := x : Machine }.store = some y := by
    rw [eval_ax m x hne, hy]
  have hop' : Op.execTwo { m with ax := x } f (.reg .ax) (address right) =
      some { m with ax := f x y } := execTwo_reg .ax f x _ rfl rfl hr hy'
  refine ⟨_, ?_, gets_put (agrees_ax m (f x y)) hd.2 (f x y)⟩
  simp [Op.execAll, directOps, exec_load hl hx, hop, hop', exec_store hd]

/-- A product or a quotient: `bx` is saved before it and restored behind it. -/
theorem productOps_gets (ops : List Op) (v dx : Word)
    (hops : ∀ m' : Machine, m'.ax = x → m'.bx = y →
      Op.execAll m' ops = some { m' with ax := v, dx := dx })
    (hd : dest.IsPlace) (hl : left.IsAddressable) (hr : right.IsAddressable)
    (hne : right ≠ .accumulator) (hx : left.eval words m.store = some x)
    (hy : right.eval words m.store = some y) :
    ∃ m', Op.execAll m (productOps ops dest left right) = some m' ∧ m.Gets m' dest v := by
  -- The state with both operands loaded, and what the operation makes of it.
  let loaded : Machine := { m.push m.bx with ax := x, bx := y }
  let done : Machine := { loaded with ax := v, dx := dx }
  have hpush : (Op.push (.reg .bx)).exec m = some (m.push m.bx) := rfl
  have hx' : left.eval words (m.push m.bx).store = some x := hx
  have hy' : right.eval words { m.push m.bx with ax := x : Machine }.store = some y :=
    (eval_ax (m.push m.bx) x hne).trans hy
  have hbx : (Op.mov (.reg .bx) (address right)).exec { m.push m.bx with ax := x } = some loaded :=
    execTwo_reg .bx _ m.bx _ rfl rfl hr hy'
  have hmid : Op.execAll loaded ops = some done := hops loaded rfl rfl
  have hpop : (Op.pop (.reg .bx)).exec (done.put v dest) =
      some ({ m with ax := v, dx := dx : Machine }.put v dest) := by
    have hsp : m.sp - 2 + 2 = m.sp := BitVec.sub_add_cancel _ _
    cases dest <;>
      simp only [Op.exec, Arg.hasWidth, done, loaded, Machine.put, Machine.setSlot,
        Machine.setGlobal, Machine.push, Machine.pop, Arg.write, Machine.setRegister, hsp, if_true,
        Option.bind_some]
  refine ⟨_, ?_, gets_put (agrees_ax_dx m v dx) hd.2 v⟩
  unfold Op.execAll at hmid
  simp only [Op.execAll, productOps, List.foldlM_append, List.foldlM_cons, List.foldlM_nil, hpush,
    exec_load hl hx', hbx, Option.pure_def, Option.bind_eq_bind, Option.bind_some, hmid,
    exec_store hd]
  simpa [done] using hpop

theorem execAll_imul (m : Machine) (hx : m.ax = x) (hy : m.bx = y) :
    Op.execAll m [.imul (.reg .bx)] =
      some { m with ax := x * y, dx := BitVec.ofInt 16 (x.toInt * y.toInt / 65536) } := by
  have hmul : BitVec.ofInt 16 (x.toInt * y.toInt) = x * y := by
    rw [BitVec.ofInt_mul, BitVec.ofInt_toInt, BitVec.ofInt_toInt]
  simp [Op.execAll, Op.exec, Arg.hasWidth, Arg.read, Machine.register, Machine.multiply, hx, hy,
    hmul]

/-- The sign of a word before its bits makes a number of 32 bits with the same value. -/
theorem extend_value (x : Word) :
    (if x.toInt < 0 then BitVec.ofInt 16 (-1) else 0 : Word).toInt * 65536 + x.toNat =
      x.toInt := by
  have hx := BitVec.toInt_eq_toNat_cond x
  have hlt := x.isLt
  split
  · have : (BitVec.ofInt 16 (-1)).toInt = -1 := by decide
    omega
  · have : (0 : Word).toInt = 0 := by decide
    omega

theorem execAll_idiv (m : Machine) (hx : m.ax = x) (hy : m.bx = y) (h0 : y ≠ 0)
    (hfits : -32768 ≤ x.toInt.tdiv y.toInt ∧ x.toInt.tdiv y.toInt < 32768) :
    Op.execAll m [.cwd, .idiv (.reg .bx)] =
      some { m with
        ax := BitVec.ofInt 16 (x.toInt.tdiv y.toInt)
        dx := BitVec.ofInt 16 (x.toInt.tmod y.toInt) } := by
  have hext := extend_value x
  have hnot : ¬(y = 0 ∨ x.toInt.tdiv y.toInt < -32768 ∨ 32768 ≤ x.toInt.tdiv y.toInt) := by
    rintro (h | h | h)
    · exact h0 h
    · exact Int.not_lt.mpr hfits.1 h
    · exact Int.not_lt.mpr h hfits.2
  simp only [Op.execAll, List.foldlM_cons, List.foldlM_nil, Op.exec, Arg.hasWidth, Arg.read,
    Machine.register, Machine.extend, Machine.divide, hx, hy, hext, hnot, ↓reduceIte,
    Option.bind_some, Option.bind_eq_bind]
  rfl

/-- The quotient of two words is a word. -/
def QuotientFits (x y : Word) : Prop :=
  y ≠ 0 ∧ -32768 ≤ x.toInt.tdiv y.toInt ∧ x.toInt.tdiv y.toInt < 32768

theorem plainOps_gets (op : BinOp) (hd : dest.IsPlace) (hl : left.IsAddressable)
    (hr : right.IsAddressable) (hne : right ≠ .accumulator)
    (hx : left.eval words m.store = some x) (hy : right.eval words m.store = some y)
    (hdiv : op = .div → QuotientFits x y) :
    ∃ m', Op.execAll m (plainOps dest left op right) = some m' ∧
      m.Gets m' dest (words.apply op x y) := by
  cases op with
  | add => exact directOps_gets .add _ (fun _ _ _ => rfl) hd hl hr hne hx hy
  | sub => exact directOps_gets .sub _ (fun _ _ _ => rfl) hd hl hr hne hx hy
  | or => exact directOps_gets .or _ (fun _ _ _ => rfl) hd hl hr hne hx hy
  | and => exact directOps_gets .and _ (fun _ _ _ => rfl) hd hl hr hne hx hy
  | mul => exact productOps_gets _ _ _ (fun m' => execAll_imul m') hd hl hr hne hx hy
  | div =>
    obtain ⟨h0, hfits⟩ := hdiv rfl
    exact productOps_gets _ _ _ (fun m' hx' hy' => execAll_idiv m' hx' hy' h0 hfits) hd hl hr hne
      hx hy

/-! ## Zero and one -/

theorem eval_of_isZero (hz : o.isZero = true) (h : o.IsAddressable)
    (hv : o.eval words m.store = some v) : v = 0 := by
  cases o with
  | literal text =>
    obtain ⟨n, hn⟩ := Option.isSome_iff_exists.mp h
    rw [isZero_literal hn, decide_eq_true_eq] at hz
    simp only [Operand.eval, hn, hz, Option.map_some, Option.some.injEq] at hv
    exact hv.symm
  | _ => cases hz

theorem eval_of_isOne (ho : o.isOne = true) (h : o.IsAddressable)
    (hv : o.eval words m.store = some v) : v = 1 := by
  cases o with
  | literal text =>
    obtain ⟨n, hn⟩ := Option.isSome_iff_exists.mp h
    rw [isOne_literal hn, decide_eq_true_eq] at ho
    simp only [Operand.eval, hn, ho, Option.map_some, Option.some.injEq] at hv
    exact hv.symm
  | _ => cases ho

theorem tdiv_one_word (x : Word) : BitVec.ofInt 16 (x.toInt.tdiv (1 : Word).toInt) = x := by
  rw [show (1 : Word).toInt = 1 by decide, Int.tdiv_one, BitVec.ofInt_toInt]

theorem zero_tdiv_word (y : Word) : BitVec.ofInt 16 ((0 : Word).toInt.tdiv y.toInt) = 0 := by
  rw [show (0 : Word).toInt = 0 by decide, Int.zero_tdiv]
  rfl

theorem shortOps_gets {op : BinOp} {ops : List Op} (h : shortOps? dest left op right = some ops)
    (hd : dest.IsPlace) (hl : left.IsAddressable) (hr : right.IsAddressable)
    (hx : left.eval words m.store = some x) (hy : right.eval words m.store = some y) :
    ∃ m', Op.execAll m ops = some m' ∧ m.Gets m' dest (words.apply op x y) := by
  have hmove : ∀ {o : Operand} {v : Word}, o.IsAddressable → o.eval words m.store = some v →
      words.apply op x y = v → ∃ m', Op.execAll m (moveOps dest o) = some m' ∧
        m.Gets m' dest (words.apply op x y) :=
    fun ho hv heq => heq ▸ moveOps_gets hd ho hv
  have hclear : words.apply op x y = 0 → ∃ m', Op.execAll m (clearOps dest) = some m' ∧
      m.Gets m' dest (words.apply op x y) := fun heq => heq ▸ clearOps_gets hd
  cases op with
  | add =>
    simp only [shortOps?] at h
    split at h
    · rename_i hz
      cases h
      refine hmove hl hx ?_
      simp [words, eval_of_isZero hz hr hy]
    split at h
    · rename_i hz
      cases h
      refine hmove hr hy ?_
      simp [words, eval_of_isZero hz hl hx]
    · cases h
  | sub =>
    simp only [shortOps?] at h
    split at h
    · rename_i hz
      cases h
      refine hmove hl hx ?_
      simp [words, eval_of_isZero hz hr hy]
    · cases h
  | mul =>
    simp only [shortOps?, Bool.or_eq_true] at h
    split at h
    · rename_i hz
      cases h
      refine hclear ?_
      rcases hz with hz | hz
      · simp [words, eval_of_isZero hz hl hx]
      · simp [words, eval_of_isZero hz hr hy]
    split at h
    · rename_i ho
      cases h
      refine hmove hl hx ?_
      simp [words, eval_of_isOne ho hr hy]
    split at h
    · rename_i ho
      cases h
      refine hmove hr hy ?_
      simp [words, eval_of_isOne ho hl hx]
    · cases h
  | div =>
    simp only [shortOps?] at h
    split at h
    · rename_i hz
      cases h
      refine hclear ?_
      rw [eval_of_isZero hz hl hx]
      exact zero_tdiv_word y
    split at h
    · rename_i ho
      cases h
      refine hmove hl hx ?_
      rw [eval_of_isOne ho hr hy]
      exact tdiv_one_word x
    · cases h
  | or => cases h
  | and => cases h

/-- One step up or down, in place or through `ax`. -/
theorem stepFrom_gets (op : Arg → Op) (f : Word → Word)
    (hop : ∀ (m : Machine) (a : Arg), (op a).exec m = Op.execOne m f a)
    (hd : dest.IsPlace) (h : o.IsAddressable) (hv : o.eval words m.store = some v) :
    ∃ m', Op.execAll m (if o = dest then [op (sizedAddress dest)]
      else [.mov (.reg .ax) (address o), op (.reg .ax), .mov (address dest) (.reg .ax)]) = some m' ∧
      m.Gets m' dest (f v) := by
  split
  · rename_i heq
    subst heq
    refine ⟨m.put (f v) o, ?_, gets_put (agrees_ax m m.ax) hd.2 _⟩
    simp [Op.execAll, hop, execOne_place f hd hv]
  · exact throughAx_gets op f hop hd h hv

theorem stepOps_gets {op : BinOp}
    (h : ((Instr.binary dest left op right).isIncrement ||
      (Instr.binary dest left op right).isDecrement) = true)
    (hd : dest.IsPlace) (hl : left.IsAddressable) (hr : right.IsAddressable)
    (hx : left.eval words m.store = some x) (hy : right.eval words m.store = some y) :
    ∃ m', Op.execAll m (stepOps dest left op right) = some m' ∧
      m.Gets m' dest (words.apply op x y) := by
  cases op with
  | add =>
    simp only [Instr.isIncrement, Instr.isDecrement, Bool.or_false, Bool.or_eq_true] at h
    by_cases hleft : (right.isOne && !left.isLiteral) = true
    · have hone : y = 1 := eval_of_isOne (Bool.and_eq_true _ _ ▸ hleft).1 hr hy
      have hstep := stepFrom_gets .inc _ (fun _ _ => rfl) hd hl hx
      simpa [stepOps, hleft, words, hone] using hstep
    · have hright := h.resolve_left hleft
      have hone : x = 1 := eval_of_isOne (Bool.and_eq_true _ _ ▸ hright).1 hl hx
      have hstep := stepFrom_gets .inc _ (fun _ _ => rfl) hd hr hy
      simpa [stepOps, hleft, words, hone, BitVec.add_comm] using hstep
  | sub =>
    simp only [Instr.isIncrement, Instr.isDecrement, Bool.false_or] at h
    have hone : y = 1 := eval_of_isOne (Bool.and_eq_true _ _ ▸ h).1 hr hy
    have hstep := stepFrom_gets .dec _ (fun _ _ => rfl) hd hl hx
    simpa [stepOps, h, words, hone] using hstep
  | mul => cases h
  | div => cases h
  | or => cases h
  | and => cases h

theorem binaryOps_gets (op : BinOp) (hd : dest.IsPlace) (hl : left.IsAddressable)
    (hr : right.IsAddressable) (hne : right ≠ .accumulator)
    (hx : left.eval words m.store = some x) (hy : right.eval words m.store = some y)
    (hdiv : op = .div → QuotientFits x y) :
    ∃ m', Op.execAll m (binaryOps dest left op right) = some m' ∧
      m.Gets m' dest (words.apply op x y) := by
  unfold binaryOps
  dsimp only
  split
  · rename_i hstep
    exact stepOps_gets hstep hd hl hr hx hy
  · cases hshort : shortOps? dest left op right with
    | some ops => exact shortOps_gets hshort hd hl hr hx hy
    | none => exact plainOps_gets op hd hl hr hne hx hy hdiv

/-! ## Whole instructions -/

end Asm

namespace Instr

open Asm Arithmetic

/-- The computations that have an assembly of their own. The accumulator holds the left operand by
the time the right one is read. -/
def IsLowerable : Instr → Prop
  | binary dest left _ right =>
    dest.IsPlace ∧ left.IsAddressable ∧ right.IsAddressable ∧ right ≠ .accumulator
  | assign dest source => dest.IsPlace ∧ source.IsAddressable
  | negate dest source => dest.IsPlace ∧ source.IsAddressable
  | _ => False

/-- A quotient is one that the machine can give. -/
def DividesIn (m : Machine) : Instr → Prop
  | binary _ left .div right =>
    ∀ x y, left.eval words m.store = some x → right.eval words m.store = some y → QuotientFits x y
  | _ => True

/-- The assembly of a computation without any shorter form. -/
def plainForm : Instr → List Op
  | binary dest left op right => Asm.plainOps dest left op right
  | assign dest source => [.mov (.reg .ax) (address source), .mov (address dest) (.reg .ax)]
  | negate dest source => negateOps dest source
  | _ => []

end Instr

namespace Asm

open Arithmetic

theorem eval_addressable (m : Machine) {o : Operand} (h : o.IsAddressable) :
    ∃ v, o.eval words m.store = some v := by
  cases o with
  | literal text =>
    obtain ⟨n, hn⟩ := Option.isSome_iff_exists.mp h
    exact ⟨words.ofInt n, by simp [Operand.eval, hn]⟩
  | _ => exact ⟨_, rfl⟩

/-- From every state, the assembly of a computation gives its destination the value that the
computation has there, and changes no other slot and variable, nor `bx`, `bp`, `sp` and the stack;
and the plain form of it gives the destination that same value. -/
theorem lower_gets_value (table : SymbolTable) (i : Instr) (m : Machine) (h : i.IsLowerable)
    (hdiv : i.DividesIn m) :
    ∃ dest v m' m'', i.dest? = some dest ∧ i.value words m.store = some v ∧
      execLines m (lower table i) = some m' ∧ m.Gets m' dest v ∧
      Op.execAll m i.plainForm = some m'' ∧ m.Gets m'' dest v := by
  cases i with
  | binary dest left op right =>
    obtain ⟨hd, hl, hr, hne⟩ := h
    obtain ⟨x, hx⟩ := eval_addressable m hl
    obtain ⟨y, hy⟩ := eval_addressable m hr
    have hfits : op = .div → QuotientFits x y := fun hop => by
      subst hop
      exact hdiv x y hx hy
    obtain ⟨m', hrun, hgets⟩ := binaryOps_gets op hd hl hr hne hx hy hfits
    obtain ⟨m'', hplain, hsame⟩ := plainOps_gets op hd hl hr hne hx hy hfits
    refine ⟨dest, _, m', m'', rfl, ?_, (execLines_ops m _).trans hrun, hgets, hplain, hsame⟩
    simp [Instr.value, hx, hy]
  | assign dest source =>
    obtain ⟨hd, hs⟩ := h
    obtain ⟨v, hv⟩ := eval_addressable m hs
    obtain ⟨m', hrun, hgets⟩ := moveOps_gets hd hs hv
    refine ⟨dest, v, m', _, rfl, hv, (execLines_ops m _).trans hrun, hgets, ?_,
      gets_put (agrees_ax m v) hd.2 v⟩
    simp [Instr.plainForm, Op.execAll, exec_load hs hv, exec_store hd]
  | negate dest source =>
    obtain ⟨hd, hs⟩ := h
    obtain ⟨v, hv⟩ := eval_addressable m hs
    obtain ⟨m', hrun, hgets⟩ := negateOps_gets hd hs hv
    refine ⟨dest, -v, m', m', rfl, ?_, (execLines_ops m _).trans hrun, hgets, hrun, hgets⟩
    rw [Instr.value, hv]
    rfl
  | _ => exact absurd h id

/-- Minus seven halves, with the right operand also the destination. -/
theorem lower_gets_value_quotient :
    ∃ m' m'',
      execLines ⟨0, 5, 0, 0, 0, [], fun _ => 2, fun _ => 0⟩
        (lower .empty (.binary (.frame (-2)) (.literal "-7") .div (.frame (-2)))) = some m' ∧
      Machine.Gets ⟨0, 5, 0, 0, 0, [], fun _ => 2, fun _ => 0⟩ m' (.frame (-2)) (-3) ∧
      Op.execAll ⟨0, 5, 0, 0, 0, [], fun _ => 2, fun _ => 0⟩
        (Instr.plainForm (.binary (.frame (-2)) (.literal "-7") .div (.frame (-2)))) = some m'' ∧
      Machine.Gets ⟨0, 5, 0, 0, 0, [], fun _ => 2, fun _ => 0⟩ m'' (.frame (-2)) (-3) := by
  have hnumber : (wholeNumber? "-7").isSome = true := by decide +kernel
  have hvalue : Instr.value words (Machine.store ⟨0, 5, 0, 0, 0, [], fun _ => 2, fun _ => 0⟩)
      (.binary (.frame (-2)) (.literal "-7") .div (.frame (-2))) = some (-3) := by decide +kernel
  obtain ⟨dest, v, m', m'', hdest, hv, hrun, hgets, hplain, hsame⟩ :=
    lower_gets_value .empty (.binary (.frame (-2)) (.literal "-7") .div (.frame (-2)))
      ⟨0, 5, 0, 0, 0, [], fun _ => 2, fun _ => 0⟩ ⟨⟨trivial, rfl⟩, hnumber, trivial, by decide⟩
      (by
        intro x y hx hy
        cases hx
        cases hy
        exact ⟨by decide +kernel, by decide +kernel, by decide +kernel⟩)
  cases hdest
  rw [hvalue] at hv
  cases hv
  exact ⟨m', m'', hrun, hgets, hplain, hsame⟩

end Asm

end Triad
