import SmallLisp.Proofs.LocalNames

/-! # What a printed line tells

A line is put together from names, numbers and fixed texts. Each part can be told from what stands after it, so two
lines that are equal are printed from the same parts. Only the identities of blocks are lost, as a line has labels
in their place.
-/
namespace SmallLisp.IR

/-! ## Parts of lines -/

/-- Where two texts are followed by the same line, or by lines that do not go on with a character of a name, they
are equal only in a given case, and so is what follows. -/
def Tells (a b : List Char) (p : Prop) : Prop :=
  ∀ ⦃s s' : List Char⦄, Stops Name.isBareChar s → Stops Name.isBareChar s' → a ++ s = b ++ s' → p ∧ s = s'

namespace Tells
variable {a b c d sep : List Char} {p q : Prop}

theorem eq (h : Tells a b p) (he : a = b) : p := by
  have hnil : Stops Name.isBareChar [] := nofun
  exact (h hnil hnil (congrArg (· ++ []) he)).1

theorem mono (h : Tells a b p) (hpq : p → q) : Tells a b q := fun _ _ hs hs' he => (h hs hs' he).imp_left hpq

theorem fixed (sep : List Char) : Tells sep sep True := fun _ _ _ _ he => ⟨trivial, List.append_cancel_left he⟩

theorem fixed_append (sep : List Char) (h : Tells a b p) : Tells (sep ++ a) (sep ++ b) p := by
  intro s s' hs hs' he
  rw [List.append_assoc, List.append_assoc] at he
  exact h hs hs' (List.append_cancel_left he)

/-- A part ends where a fixed text starts that no name goes on with. -/
theorem append (h : Tells a b p) (hc : Tells c d q) (hsep : sep.head?.any (!Name.isBareChar ·) = true) :
    Tells (a ++ (sep ++ c)) (b ++ (sep ++ d)) (p ∧ q) := by
  intro s s' hs hs' he
  have hstop (t : List Char) : Stops Name.isBareChar (sep ++ t) := by
    cases sep with
    | nil => cases hsep
    | cons x sep => exact stops_cons (by simpa using hsep) _
  simp only [List.append_assoc] at he
  obtain ⟨hp, he⟩ := h (hstop _) (hstop _) he
  obtain ⟨hq, he⟩ := hc hs hs' (List.append_cancel_left he)
  exact ⟨⟨hp, hq⟩, he⟩

theorem append_fixed (h : Tells a b p) (hsep : sep.head?.any (!Name.isBareChar ·) = true) :
    Tells (a ++ sep) (b ++ sep) p := by
  have happend := h.append (.fixed []) hsep
  rw [List.append_nil] at happend
  exact happend.mono And.left

end Tells

/-- A text without a character ends where that character stands. -/
theorem append_cons_inj {α : Type} {a b s s' : List α} {c : α} (ha : c ∉ a) (hb : c ∉ b)
    (h : a ++ c :: s = b ++ c :: s') : a = b ∧ s = s' := by
  induction a generalizing b with
  | nil =>
    cases b with
    | nil => exact ⟨rfl, List.tail_eq_of_cons_eq h⟩
    | cons y b =>
      cases h
      exact absurd List.mem_cons_self hb
  | cons x a ih =>
    cases b with
    | nil =>
      cases h
      exact absurd List.mem_cons_self ha
    | cons y b =>
      obtain ⟨rfl, htail⟩ := List.cons.inj h
      obtain ⟨rfl, hs⟩ := ih (mt (List.mem_cons_of_mem x) ha) (mt (List.mem_cons_of_mem x) hb) htail
      exact ⟨rfl, hs⟩

/-! ## Names and operands -/

theorem printed_tells (name name' : String) : Tells (Name.printed name) (Name.printed name') (name = name') := by
  intro s s' hs hs' he
  have hread := Name.read?_printed name hs
  rw [he, Name.read?_printed name' hs'] at hread
  obtain ⟨hbytes, hrest⟩ := Prod.mk.inj (Option.some.inj hread)
  exact ⟨(Name.bytes_inj.mp hbytes).symm, hrest.symm⟩

theorem name_tells (sigil : Char) (name name' : String) :
    Tells (Name.text sigil name).toList (Name.text sigil name').toList (name = name') := by
  rw [Name.toList_text, Name.toList_text]
  exact (printed_tells name name').fixed_append [sigil]

theorem reg_tells (r r' : Reg) : Tells r.text.toList r'.text.toList (r = r') := by
  rw [Reg.toList_text, Reg.toList_text]
  refine ((printed_tells _ _).fixed_append ['%']).mono fun h => ?_
  exact congrArg Reg.mk (result_inj h)

/-- The digits of a number, after a minus sign if it is negative. -/
theorem toList_int64 (v : Int64) : (toString v).toList =
    (if v.toInt < 0 then ['-'] else []) ++ Nat.toDigits 10 v.toInt.natAbs := by
  change (toString v.toInt).toList = _
  cases v.toInt with
  | ofNat n =>
    change (Nat.repr n).toList = _
    rw [Nat.toList_repr, if_neg (show ¬ Int.ofNat n < 0 from Int.not_lt.mpr (Int.natCast_nonneg n))]
    rfl
  | negSucc n =>
    change ("-" ++ Nat.repr (n + 1)).toList = _
    rw [String.toList_append, Nat.toList_repr, if_pos (Int.negSucc_lt_zero n)]
    rfl

theorem isBareChar_of_mem_toDigits {n : Nat} : ∀ d ∈ Nat.toDigits 10 n, Name.isBareChar d = true := by
  intro d hd
  have hd : d.isDigit = true := Nat.isDigit_of_mem_toDigits (by decide) (by decide) hd
  simp [Name.isBareChar, Char.isAlphanum, hd]

theorem isBareChar_int64 (v : Int64) : ∀ d ∈ (toString v).toList, Name.isBareChar d = true := by
  rw [toList_int64]
  refine List.forall_mem_append.mpr ⟨?_, isBareChar_of_mem_toDigits⟩
  split
  · exact List.forall_mem_singleton.mpr rfl
  · exact nofun

theorem int64_ne_nil (v : Int64) : (toString v).toList ≠ [] := by
  rw [toList_int64]
  exact List.append_ne_nil_of_right_ne_nil _ Nat.toDigits_ne_nil

theorem toString_int64_inj {v v' : Int64} (h : (toString v).toList = (toString v').toList) : v = v' := by
  have hsign (n : Nat) (cs : List Char) : '-' :: cs ≠ Nat.toDigits 10 n := by
    intro he
    have hmem : '-' ∈ Nat.toDigits 10 n := he ▸ List.mem_cons_self
    exact absurd (Nat.isDigit_of_mem_toDigits (by decide) (by decide) hmem) (by decide)
  rw [toList_int64, toList_int64] at h
  refine Int64.toInt_inj.mp ?_
  split at h <;> split at h
  · have habs := toDigits_inj (List.append_cancel_left h)
    omega
  · exact absurd h (hsign _ _)
  · exact absurd h.symm (hsign _ _)
  · have habs := toDigits_inj h
    omega

theorem const_tells (v v' : Int64) : Tells (toString v).toList (toString v').toList (v = v') := by
  intro s s' hs hs' he
  have hrun := takeWhile_run (isBareChar_int64 v) hs
  rw [he, takeWhile_run (isBareChar_int64 v') hs'] at hrun
  rw [hrun] at he
  exact ⟨toString_int64_inj hrun.symm, List.append_cancel_left he⟩

/-- A number is not a local name. -/
theorem const_ne_local {v : Int64} {s s' : List Char} : (toString v).toList ++ s ≠ '%' :: s' := by
  have hbare := isBareChar_int64 v
  obtain ⟨c, cs, hv⟩ := List.exists_cons_of_ne_nil (int64_ne_nil v)
  rw [hv] at hbare ⊢
  rintro ⟨⟩
  exact absurd (hbare '%' List.mem_cons_self) (by decide)

theorem reg_ne_param (r : Reg) (x : String) : Tells r.text.toList (paramText x).toList False := by
  rw [Reg.toList_text, paramText, Name.toList_text]
  refine ((printed_tells _ _).fixed_append ['%']).mono fun h => ?_
  have hkind := nameKind_result r.index
  rw [h, nameKind_parameter] at hkind
  exact absurd hkind (by decide)

theorem Tells.symm {a b : List Char} {p : Prop} (h : Tells a b p) : Tells b a p :=
  fun _ _ hs hs' he => (h hs' hs he.symm).imp_right Eq.symm

theorem operand_tells (o o' : Operand) : Tells o.text.toList o'.text.toList (o = o') := by
  -- a register, a parameter and a number are never printed alike
  have hparam (v : Int64) (x : String) : Tells (toString v).toList (paramText x).toList False := by
    intro s s' _ _ he
    rw [paramText, Name.toList_text] at he
    exact absurd he const_ne_local
  have hreg (v : Int64) (r : Reg) : Tells (toString v).toList r.text.toList False := by
    intro s s' _ _ he
    rw [Reg.toList_text] at he
    exact absurd he const_ne_local
  cases o with
  | reg r =>
    cases o' with
    | reg r' => exact (reg_tells r r').mono (congrArg _)
    | const v => exact (hreg v r).symm.mono False.elim
    | arg x => exact (reg_ne_param r x).mono False.elim
  | const v =>
    cases o' with
    | reg r => exact (hreg v r).mono False.elim
    | const v' => exact (const_tells v v').mono (congrArg _)
    | arg x => exact (hparam v x).mono False.elim
  | arg x =>
    cases o' with
    | reg r => exact (reg_ne_param r x).symm.mono False.elim
    | const v => exact (hparam v x).symm.mono False.elim
    | arg x' => exact ((name_tells '%' _ _).mono fun h => congrArg Operand.arg ((String.append_right_inj "arg.").mp h))

/-! ## Items in a row -/

def isItemChar (c : Char) : Bool := Name.isBareChar c || c == ',' || c == '['

theorem stops_of_isItemChar {s : List Char} (h : Stops isItemChar s) : Stops Name.isBareChar s := by
  intro c hc
  have := h c hc
  simp only [isItemChar, Bool.or_eq_false_iff] at this
  exact this.1.1

section Items
variable {α β : Type} {R : α → β → Prop} {p : α → List Char} {q : β → List Char}

/-- The items after the first, with a comma in front of each. -/
theorem forall₂_of_items {xs : List α} {ys : List β} (h : ∀ x ∈ xs, ∀ y ∈ ys, Tells (p x) (q y) (R x y))
    {s s' : List Char} (hs : Stops isItemChar s) (hs' : Stops isItemChar s')
    (he : xs.flatMap (", ".toList ++ p ·) ++ s = ys.flatMap (", ".toList ++ q ·) ++ s') :
    List.Forall₂ R xs ys ∧ s = s' := by
  have hcomma {t u : List Char} (ht : Stops isItemChar t) : t ≠ ", ".toList ++ u := by
    rintro rfl
    exact absurd (ht ',' rfl) (by decide)
  induction xs generalizing ys with
  | nil =>
    cases ys with
    | nil => exact ⟨.nil, he⟩
    | cons y ys =>
      rw [List.flatMap_nil, List.nil_append, List.flatMap_cons, List.append_assoc, List.append_assoc] at he
      exact absurd he (hcomma hs)
  | cons x xs ih =>
    cases ys with
    | nil =>
      rw [List.flatMap_nil, List.nil_append, List.flatMap_cons, List.append_assoc, List.append_assoc] at he
      exact absurd he.symm (hcomma hs')
    | cons y ys =>
      have hstop {γ : Type} {f : γ → List Char} {t : List Char} (zs : List γ) (ht : Stops isItemChar t) :
          Stops Name.isBareChar (zs.flatMap (", ".toList ++ f ·) ++ t) := by
        cases zs with
        | nil => exact stops_of_isItemChar ht
        | cons z zs => exact stops_cons (by decide) _
      rw [List.flatMap_cons, List.flatMap_cons] at he
      simp only [List.append_assoc] at he
      have hhead := h x List.mem_cons_self y List.mem_cons_self
      obtain ⟨hxy, he⟩ := hhead (hstop xs hs) (hstop ys hs') (List.append_cancel_left he)
      have htail := ih (fun x hx y hy => h x (List.mem_cons_of_mem _ hx) y (List.mem_cons_of_mem _ hy)) he
      exact ⟨.cons hxy htail.1, htail.2⟩

theorem intercalate_cons {γ : Type} (sep l : List γ) (ls : List (List γ)) :
    sep.intercalate (l :: ls) = l ++ ls.flatMap (sep ++ ·) := by
  induction ls generalizing l with
  | nil => simp
  | cons l' ls ih =>
    rw [List.intercalate_cons_of_ne_nil (List.cons_ne_nil _ _), ih, List.flatMap_cons]
    simp only [List.append_assoc]

/-- Items with commas between them are told apart, and from what stands after them. -/
theorem forall₂_of_intercalate {xs : List α} {ys : List β}
    (h : ∀ x ∈ xs, ∀ y ∈ ys, Tells (p x) (q y) (R x y))
    (hp : ∀ x ∈ xs, ∀ s, ¬ Stops isItemChar (p x ++ s))
    (hq : ∀ y ∈ ys, ∀ s, ¬ Stops isItemChar (q y ++ s))
    {s s' : List Char} (hs : Stops isItemChar s) (hs' : Stops isItemChar s')
    (he : ", ".toList.intercalate (xs.map p) ++ s = ", ".toList.intercalate (ys.map q) ++ s') :
    List.Forall₂ R xs ys ∧ s = s' := by
  cases xs with
  | nil =>
    cases ys with
    | nil => exact ⟨.nil, he⟩
    | cons y ys =>
      rw [List.map_cons, intercalate_cons, List.append_assoc] at he
      change s = _ at he
      exact absurd (he ▸ hs) (hq y List.mem_cons_self _)
  | cons x xs =>
    cases ys with
    | nil =>
      rw [List.map_cons, intercalate_cons, List.append_assoc] at he
      change _ = s' at he
      exact absurd (he ▸ hs') (hp x List.mem_cons_self _)
    | cons y ys =>
      -- the first items are like the others where a comma stands in front of both
      rw [List.map_cons, List.map_cons, intercalate_cons, intercalate_cons, List.flatMap_map, List.flatMap_map] at he
      refine forall₂_of_items h hs hs' ?_
      rw [List.flatMap_cons, List.flatMap_cons, List.append_assoc, List.append_assoc, List.append_assoc,
        List.append_assoc, ← List.append_assoc (p x), he, ← List.append_assoc (q y)]

end Items

theorem toList_argsText (args : List Operand) : (argsText args).toList =
    '(' :: (", ".toList.intercalate (args.map fun o => "i64 ".toList ++ o.text.toList) ++ [')']) := by
  simp [argsText, tuple, String.toList_append, String.toList_intercalate, Function.comp_def]

/-- The operands of a call in its parentheses. -/
theorem args_tells (args args' : List Operand) :
    Tells (argsText args).toList (argsText args').toList (args = args') := by
  have hitem (o : Operand) (s : List Char) : ¬ Stops isItemChar (("i64 ".toList ++ o.text.toList) ++ s) :=
    fun hs => absurd (hs 'i' rfl) (by decide)
  rw [toList_argsText, toList_argsText]
  intro s s' hs hs' he
  rw [List.cons_append, List.cons_append, List.append_assoc, List.append_assoc] at he
  have he := List.tail_eq_of_cons_eq he
  obtain ⟨hargs, hrest⟩ := forall₂_of_intercalate (fun o _ o' _ => (operand_tells o o').fixed_append _)
    (fun o _ => hitem o) (fun o _ => hitem o) (stops_cons (by decide) _) (stops_cons (by decide) _) he
  exact ⟨List.forall₂_eq_eq_eq ▸ hargs, List.tail_eq_of_cons_eq hrest⟩

/-! ## Instructions -/

inductive Opcode where
  | binary (op : BinOp)
  | icmp (pred : Pred)
  | zext | alloca | store | load | ptrToInt | call | asm | phi
deriving DecidableEq

namespace Opcode

def text : Opcode → String
  | binary op => op.text ++ " i64 "
  | icmp pred => "icmp " ++ pred.text ++ " i64 "
  | zext => "zext i1 "
  | alloca => "alloca i64, align 8"
  | store => "store i64 "
  | load => "load i64, ptr "
  | ptrToInt => "ptrtoint ptr "
  | call => "call i64 @"
  | asm => "call i64 asm sideeffect \""
  | phi => "phi i64 "

def all : List Opcode :=
  [.binary .add, .binary .sub, .binary .mul, .binary .sdiv, .binary .srem, .icmp .slt, .icmp .sgt, .icmp .eq, .zext,
    .alloca, .store, .load, .ptrToInt, .call, .asm, .phi]

theorem mem_all (o : Opcode) : o ∈ all := by
  cases o with
  | binary op => cases op <;> decide
  | icmp pred => cases pred <;> decide
  | _ => decide

/-- No instruction starts like another. -/
theorem eq_of_isPrefix :
    ∀ o ∈ all, ∀ o' ∈ all, o.text.toList.isPrefixOf o'.text.toList = true → o = o' := by decide

theorem text_append_inj {o o' : Opcode} {s s' : List Char} (h : o.text.toList ++ s = o'.text.toList ++ s') :
    o = o' ∧ s = s' := by
  have heq : o = o' := by
    have hpre := List.prefix_append o.text.toList s
    rcases List.prefix_or_prefix_of_prefix hpre (h ▸ List.prefix_append o'.text.toList s') with hp | hp
    · exact eq_of_isPrefix o o.mem_all o' o'.mem_all (List.isPrefixOf_iff_prefix.mpr hp)
    · exact (eq_of_isPrefix o' o'.mem_all o o.mem_all (List.isPrefixOf_iff_prefix.mpr hp)).symm
  subst heq
  exact ⟨rfl, List.append_cancel_left h⟩

end Opcode

namespace Instr

def opcode : Instr → Opcode
  | binary _ op _ _ => .binary op
  | icmp _ pred _ _ => .icmp pred
  | zext .. => .zext
  | alloca _ => .alloca
  | store .. => .store
  | load .. => .load
  | ptrToInt .. => .ptrToInt
  | call .. => .call
  | asm .. => .asm
  | phi .. => .phi

def rest (f : Function) : Instr → List Char
  | binary _ _ l r | icmp _ _ l r => l.text.toList ++ (", ".toList ++ r.text.toList)
  | zext _ src => src.text.toList ++ " to i64".toList
  | alloca _ => []
  | store v ptr => v.text.toList ++ (", ptr ".toList ++ (ptr.text.toList ++ ", align 8".toList))
  | load _ ptr => ptr.text.toList ++ ", align 8".toList
  | ptrToInt _ ptr => ptr.text.toList ++ " to i64".toList
  | call _ callee args => Name.printed callee ++ (argsText args).toList
  | asm _ template constraints args =>
    template.toList ++ '"' :: (", \"".toList ++ (constraints.toList ++ '"' :: (argsText args).toList))
  | phi _ incoming => ", ".toList.intercalate (incoming.map fun entry =>
      "[ ".toList ++ (entry.1.text.toList ++ (", ".toList ++ ((f.labelRef entry.2).toList ++ " ]".toList))))

/-- An instruction is printed as its result, if it has one, its opcode and the rest. -/
theorem toList_text (f : Function) (i : Instr) : (i.text f).toList =
    (i.dst?.elim [] fun r => r.text.toList ++ " = ".toList) ++ (i.opcode.text.toList ++ i.rest f) := by
  cases i with
  | binary dst op l r =>
    simp only [text, opcode, rest, dst?, Opcode.text, String.toList_append, List.append_assoc, Option.elim_some]
  | icmp dst pred l r =>
    simp only [text, opcode, rest, dst?, Opcode.text, String.toList_append, List.append_assoc, Option.elim_some]
    rfl
  | phi dst incoming =>
    simp only [text, opcode, rest, dst?, Opcode.text, String.toList_append, List.append_assoc, Option.elim_some,
      String.toList_intercalate, List.map_map, Function.comp_def]
    rfl
  | call dst callee args =>
    simp only [text, opcode, rest, dst?, Opcode.text, String.toList_append, List.append_assoc, Option.elim_some,
      Name.toList_text]
    rfl
  | asm dst template constraints args =>
    simp only [text, opcode, rest, dst?, Opcode.text, String.toList_append, List.append_assoc, Option.elim_some]
    rfl
  | store value ptr =>
    simp only [text, opcode, rest, dst?, Opcode.text, String.toList_append, List.append_assoc, Option.elim_none,
      List.nil_append]
  | zext dst src | alloca dst | load dst ptr | ptrToInt dst ptr =>
    simp only [text, opcode, rest, dst?, Opcode.text, String.toList_append, List.append_assoc, Option.elim_some]
    rfl

theorem dst?_inj {f f' : Function} {i j : Instr} (h : (i.text f).toList = (j.text f').toList) :
    i.dst? = j.dst? ∧ i.opcode.text.toList ++ i.rest f = j.opcode.text.toList ++ j.rest f' := by
  have hopcode : ∀ o ∈ Opcode.all, o.text.toList.head? ≠ some '%' ∧ o.text.toList ≠ [] := by decide
  have hlocal {o : Opcode} {s t : List Char} : o.text.toList ++ s ≠ '%' :: t := by
    obtain ⟨hhead, hne⟩ := hopcode o o.mem_all
    obtain ⟨c, cs, ho⟩ := List.exists_cons_of_ne_nil hne
    rw [ho] at hhead ⊢
    rintro ⟨⟩
    exact hhead rfl
  rw [toList_text, toList_text] at h
  cases hi : i.dst? with
  | none =>
    cases hj : j.dst? with
    | none =>
      rw [hi, hj] at h
      exact ⟨rfl, h⟩
    | some r =>
      rw [hi, hj, Option.elim_some, Reg.toList_text] at h
      exact absurd h hlocal
  | some r =>
    cases hj : j.dst? with
    | none =>
      rw [hi, hj, Option.elim_some, Reg.toList_text] at h
      exact absurd h.symm hlocal
    | some r' =>
      rw [hi, hj, Option.elim_some, Option.elim_some, List.append_assoc, List.append_assoc] at h
      have hstop (t : List Char) : Stops Name.isBareChar (" = ".toList ++ t) := stops_cons (by decide) _
      obtain ⟨rfl, hrest⟩ := reg_tells r r' (hstop _) (hstop _) h
      exact ⟨rfl, List.append_cancel_left hrest⟩

def blocks : Instr → List BlockId
  | phi _ incoming => incoming.map (·.2)
  | _ => []

def renameBlocks (ρ : BlockId → BlockId) : Instr → Instr
  | phi dst incoming => phi dst (incoming.map fun entry => (entry.1, ρ entry.2))
  | i => i

end Instr

def Terminator.renameBlocks (ρ : BlockId → BlockId) : Terminator → Terminator
  | ret v => ret v
  | br dest => br (ρ dest)
  | condBr cond yes no => condBr cond (ρ yes) (ρ no)

section Lines
variable {f f' : Function} {ρ : BlockId → BlockId}
  (hρ : ∀ ⦃id id' label⦄, f.label? id = some label → f'.label? id' = some label → ρ id = id')
include hρ

theorem labelRef_tells {id id' : BlockId} (h : (f.label? id).isSome) (h' : (f'.label? id').isSome) :
    Tells (f.labelRef id).toList (f'.labelRef id').toList (ρ id = id') := by
  obtain ⟨label, hlabel⟩ := Option.isSome_iff_exists.mp h
  obtain ⟨label', hlabel'⟩ := Option.isSome_iff_exists.mp h'
  rw [Function.labelRef, Function.labelRef, hlabel, hlabel']
  refine (name_tells '%' label label').mono ?_
  rintro rfl
  exact hρ hlabel hlabel'

/-- Phis that are printed alike have the same values from the same edges but for the identities of blocks. -/
theorem Instr.incoming_eq {dst dst' : Reg} {incoming incoming' : List (Operand × BlockId)}
    (hi : ∀ id ∈ (phi dst incoming).blocks, (f.label? id).isSome)
    (hj : ∀ id ∈ (phi dst' incoming').blocks, (f'.label? id).isSome)
    (h : (phi dst incoming).rest f = (phi dst' incoming').rest f') :
    incoming.map (fun entry => (entry.1, ρ entry.2)) = incoming' := by
  have hitem (f : Function) (entry : Operand × BlockId) (s : List Char) : ¬ Stops isItemChar (("[ ".toList ++
      (entry.1.text.toList ++ (", ".toList ++ ((f.labelRef entry.2).toList ++ " ]".toList)))) ++ s) :=
    fun hs => absurd (hs '[' rfl) (by decide)
  have hend : Stops isItemChar [] := nofun
  have hentries := (forall₂_of_intercalate (R := fun entry entry' => (entry.1, ρ entry.2) = entry') ?_
    (fun entry _ => hitem f entry) (fun entry _ => hitem f' entry) hend hend (congrArg (· ++ []) h)).1
  · rw [← List.forall₂_map_left_iff (R := Eq), List.forall₂_eq_eq_eq] at hentries
    exact hentries
  · intro entry hentry entry' hentry'
    have hlabels := labelRef_tells hρ (hi _ (List.mem_map_of_mem hentry)) (hj _ (List.mem_map_of_mem hentry'))
    refine (((operand_tells entry.1 entry'.1).append (hlabels.append_fixed rfl) rfl).fixed_append _).mono ?_
    exact fun ⟨hvalue, hblock⟩ => Prod.ext hvalue hblock

/-- Instructions that are printed alike are the same but for the identities of blocks. -/
theorem Instr.eq_renameBlocks {i j : Instr} (hi : ∀ id ∈ i.blocks, (f.label? id).isSome)
    (hj : ∀ id ∈ j.blocks, (f'.label? id).isSome)
    (hasm : ∀ dst template constraints args,
      i = .asm dst template constraints args ∨ j = .asm dst template constraints args →
      '"' ∉ template.toList ∧ '"' ∉ constraints.toList)
    (h : (i.text f).toList = (j.text f').toList) : j = i.renameBlocks ρ := by
  obtain ⟨hdst, h⟩ := Instr.dst?_inj h
  obtain ⟨hopcode, h⟩ := Opcode.text_append_inj h
  cases i with
  | binary dst op l r =>
    cases j with
    | binary dst' op' l' r' =>
      cases hdst
      cases hopcode
      obtain ⟨rfl, rfl⟩ := ((operand_tells l l').append (operand_tells r r') rfl).eq h
      rfl
    | _ => cases hopcode
  | icmp dst pred l r =>
    cases j with
    | icmp dst' pred' l' r' =>
      cases hdst
      cases hopcode
      obtain ⟨rfl, rfl⟩ := ((operand_tells l l').append (operand_tells r r') rfl).eq h
      rfl
    | _ => cases hopcode
  | zext dst src =>
    cases j with
    | zext dst' src' =>
      cases hdst
      cases ((reg_tells src src').append_fixed rfl).eq h
      rfl
    | _ => cases hopcode
  | alloca dst =>
    cases j with
    | alloca dst' =>
      cases hdst
      rfl
    | _ => cases hopcode
  | store value ptr =>
    cases j with
    | store value' ptr' =>
      obtain ⟨rfl, rfl⟩ := ((operand_tells value value').append ((reg_tells ptr ptr').append_fixed rfl) rfl).eq h
      rfl
    | _ => cases hopcode
  | load dst ptr =>
    cases j with
    | load dst' ptr' =>
      cases hdst
      cases ((reg_tells ptr ptr').append_fixed rfl).eq h
      rfl
    | _ => cases hopcode
  | ptrToInt dst ptr =>
    cases j with
    | ptrToInt dst' ptr' =>
      cases hdst
      cases ((reg_tells ptr ptr').append_fixed rfl).eq h
      rfl
    | _ => cases hopcode
  | call dst callee args =>
    cases j with
    | call dst' callee' args' =>
      cases hdst
      rw [rest, rest, toList_argsText, toList_argsText] at h
      obtain ⟨rfl, hargs⟩ := printed_tells callee callee' (stops_cons (by decide) _) (stops_cons (by decide) _) h
      rw [← toList_argsText, ← toList_argsText] at hargs
      cases (args_tells args args').eq hargs
      rfl
    | _ => cases hopcode
  | asm dst template constraints args =>
    cases j with
    | asm dst' template' constraints' args' =>
      cases hdst
      obtain ⟨htemplate, hconstraints⟩ := hasm _ _ _ _ (.inl rfl)
      obtain ⟨htemplate', hconstraints'⟩ := hasm _ _ _ _ (.inr rfl)
      obtain ⟨heq, h⟩ := append_cons_inj htemplate htemplate' h
      obtain ⟨heq', hargs⟩ := append_cons_inj hconstraints hconstraints' (List.append_cancel_left h)
      cases String.toList_inj.mp heq
      cases String.toList_inj.mp heq'
      cases (args_tells args args').eq hargs
      rfl
    | _ => cases hopcode
  | phi dst incoming =>
    cases j with
    | phi dst' incoming' =>
      cases hdst
      rw [renameBlocks, incoming_eq hρ hi hj h]
    | _ => cases hopcode

/-- Terminators that are printed alike are the same but for the identities of blocks. -/
theorem Terminator.eq_renameBlocks {t u : Terminator} (ht : ∀ id ∈ t.successors, (f.label? id).isSome)
    (hu : ∀ id ∈ u.successors, (f'.label? id).isSome) (h : (t.text f).toList = (u.text f').toList) :
    u = t.renameBlocks ρ := by
  cases t with
  | ret v =>
    cases u with
    | ret v' =>
      simp only [text, String.toList_append] at h
      cases ((operand_tells v v').fixed_append _).eq h
      rfl
    | br _ | condBr _ _ _ =>
      simp only [text, String.toList_append] at h
      cases h
  | br dest =>
    cases u with
    | br dest' =>
      simp only [text, String.toList_append] at h
      have hdest := labelRef_tells hρ (ht dest (by simp [successors])) (hu dest' (by simp [successors]))
      cases (hdest.fixed_append _).eq h
      rfl
    | ret _ | condBr _ _ _ =>
      simp only [text, String.toList_append] at h
      cases h
  | condBr c yes no =>
    cases u with
    | condBr c' yes' no' =>
      simp only [text, String.toList_append, List.append_assoc] at h
      have hyes := labelRef_tells hρ (ht yes (by simp [successors])) (hu yes' (by simp [successors]))
      have hno := labelRef_tells hρ (ht no (by simp [successors])) (hu no' (by simp [successors]))
      obtain ⟨rfl, rfl, rfl⟩ := (((reg_tells c c').append (hyes.append hno rfl) rfl).fixed_append _).eq h
      rfl
    | ret _ | br _ =>
      simp only [text, String.toList_append, List.append_assoc] at h
      cases h

end Lines
end SmallLisp.IR
