import SmallLisp.Proofs.GrammarCompleteness
import SmallLisp.Proofs.ReadTrees

/-! # Printed trees

An expression is printed with one blank between its parts. Where the expression is one that a text can be read
as, its print is a form of the grammar, whatever follows it where a token ends; so printed expressions with
blanks between them are read as those expressions again.
-/
namespace SmallLisp

mutual

/-- The print of an expression. The call in a conditional is printed with a blank after its head even where it
has no operands. -/
def Expr.sexp : Expr → String
  | .int v _ => toString v
  | .name x _ => x
  | .ref target _ => "&" ++ target.sexp
  | .call ⟨head, args, _⟩ _ =>
    if args.isEmpty then "(" ++ head ++ ")" else "(" ++ head ++ " " ++ " ".intercalate (sexpEach args) ++ ")"
  | .define ⟨name, params, body, _⟩ _ =>
    "(def " ++ name ++ " (" ++ " ".intercalate params ++ ") " ++ " ".intercalate (sexpEach body) ++ ")"
  | .branch ⟨head, args, _⟩ yes no _ =>
    let test := "(" ++ head ++ " " ++ " ".intercalate (sexpEach args) ++ ")"
    match no with
    | some e => "(if " ++ test ++ " " ++ yes.sexp ++ " " ++ e.sexp ++ ")"
    | none => "(if " ++ test ++ " " ++ yes.sexp ++ ")"

def sexpEach : List Expr → List String
  | [] => []
  | e :: es => e.sexp :: sexpEach es

end

theorem sexpEach_eq_map (es : List Expr) : sexpEach es = es.map Expr.sexp := by
  induction es with
  | nil => simp only [sexpEach, List.map_nil]
  | cons e es ih => rw [sexpEach, ih, List.map_cons]

/-! ## Prints in the grammar -/

def spaced (texts : List String) : List Char := texts.flatMap fun text => ' ' :: text.toList

theorem spaced_cons (text : String) (texts : List String) :
    spaced (text :: texts) = [' '] ++ text.toList ++ spaced texts := by
  simp [spaced]

theorem toList_intercalate_cons (text : String) (texts : List String) :
    (" ".intercalate (text :: texts)).toList = text.toList ++ spaced texts := by
  induction texts generalizing text with
  | nil => simp [spaced]
  | cons t ts ih =>
    rw [String.intercalate_cons_cons, String.toList_append, String.toList_append, ih, spaced_cons]
    simp

theorem blanks_singleton : Blanks [' '] := List.forall_mem_singleton.mpr rfl

theorem tokenEnds_blank (opening : Bool) (next : List Char) : TokenEnds opening (' ' :: next) := .inl rfl

theorem tokenEnds_spaced (opening : Bool) (texts : List String) (next : List Char) :
    TokenEnds opening (spaced texts ++ ')' :: next) := by
  cases texts with
  | nil => exact .inr (.inl rfl)
  | cons text texts => exact .inl rfl

theorem params_spaced {xs : List String} (h : ∀ x ∈ xs, IsIdentifier x.toList) :
    Params (spaced xs ++ [')']) xs := by
  induction xs with
  | nil => exact .close .nil
  | cons x xs ih =>
    obtain ⟨hx, hxs⟩ := List.forall_mem_cons.mp h
    have hparams := Params.cons blanks_singleton hx (tokenEnds_spaced _ xs []) (ih hxs)
    rwa [String.ofList_toList, ← List.append_assoc, ← spaced_cons] at hparams

theorem params_intercalate {xs : List String} (h : ∀ x ∈ xs, IsIdentifier x.toList) :
    Params ((" ".intercalate xs).toList ++ [')']) xs := by
  cases xs with
  | nil => exact .close .nil
  | cons x xs =>
    obtain ⟨hx, hxs⟩ := List.forall_mem_cons.mp h
    have hparams := Params.cons .nil hx (tokenEnds_spaced _ xs []) (params_spaced hxs)
    rwa [String.ofList_toList, List.nil_append, ← List.append_assoc, ← toList_intercalate_cons] at hparams

def Expr.PrintsForm (e : Expr) : Prop := ∀ next, TokenEnds false next → Form e.sexp.toList e.bare next

theorem items_spaced {es : List Expr} (h : ∀ e ∈ es, e.PrintsForm) (next : List Char) :
    Items (spaced (es.map Expr.sexp) ++ [')']) (es.map Expr.bare) next := by
  induction es with
  | nil => exact .close .nil
  | cons e es ih =>
    obtain ⟨he, hes⟩ := List.forall_mem_cons.mp h
    have hend : TokenEnds false ((spaced (es.map Expr.sexp) ++ [')']) ++ next) := by
      rw [List.append_assoc]
      exact tokenEnds_spaced _ _ _
    rw [List.map_cons, List.map_cons, spaced_cons, List.append_assoc]
    exact .cons ((he _ hend).blanks_append blanks_singleton) (ih hes)

/-- Operands after a blank, also where there are none. -/
theorem items_intercalate {es : List Expr} (h : ∀ e ∈ es, e.PrintsForm) (next : List Char) :
    Items (' ' :: (" ".intercalate (es.map Expr.sexp)).toList ++ [')']) (es.map Expr.bare) next := by
  cases es with
  | nil => exact .close blanks_singleton
  | cons e es =>
    rw [List.map_cons, toList_intercalate_cons]
    have hitems := items_spaced h next
    rwa [List.map_cons, spaced_cons] at hitems

theorem IsCallHead.form {head : String} {w next : List Char} {args : List Expr} (h : IsCallHead head)
    (hend : TokenEnds true w) (hargs : Items w args next) :
    Form ('(' :: (head.toList ++ w)) (.call ⟨head, args, default⟩ default) next := by
  have hdef : head.toList ≠ "def".toList := mt String.toList_inj.mp h.ne_def
  have hif : head.toList ≠ "if".toList := mt String.toList_inj.mp h.ne_if
  have hform := Form.call .nil .nil h.operand hdef hif hend hargs
  rwa [String.ofList_toList] at hform

theorem toList_sexp_call (c : Call) (s : Span) :
    (Expr.call c s).sexp.toList = '(' :: (c.head.toList ++ (spaced (c.args.map Expr.sexp) ++ [')'])) := by
  obtain ⟨head, args, span⟩ := c
  cases args with
  | nil => simp [Expr.sexp, spaced]
  | cons a as =>
    simp [-String.toList_intercalate, Expr.sexp, sexpEach, sexpEach_eq_map, toList_intercalate_cons, spaced_cons]

theorem toList_sexp_define (d : Definition) (s : Span) (h : d.body ≠ []) :
    (Expr.define d s).sexp.toList = '(' :: 'd' :: 'e' :: 'f' :: ' ' :: (d.name.toList ++ (' ' :: '(' ::
      ((" ".intercalate d.params).toList ++ [')'] ++ (spaced (d.body.map Expr.sexp) ++ [')'])))) := by
  obtain ⟨name, params, body, span⟩ := d
  obtain ⟨e, es, rfl⟩ := List.exists_cons_of_ne_nil h
  simp [-String.toList_intercalate, Expr.sexp, sexpEach, sexpEach_eq_map, toList_intercalate_cons, spaced_cons]

theorem toList_sexp_branch (test : Call) (yes : Expr) (no : Option Expr) (s : Span) :
    (Expr.branch test yes no s).sexp.toList = '(' :: 'i' :: 'f' :: ([' '] ++ '(' :: (test.head.toList ++
      (' ' :: (" ".intercalate (test.args.map Expr.sexp)).toList ++ [')'])) ++
        (spaced ((yes :: no.toList).map Expr.sexp) ++ [')'])) := by
  obtain ⟨head, args, span⟩ := test
  cases no <;> simp [Expr.sexp, sexpEach_eq_map, spaced]

theorem isInteger_toDigits {n : Nat} (h : n ≤ 9223372036854775807) : IsInteger (Nat.toDigits 10 n) := by
  refine ⟨Nat.toDigits_ne_nil, fun d hd => Nat.isDigit_of_mem_toDigits (by decide) (by decide) hd, ?_⟩
  rwa [Nat.ofDigitChars_ten_toDigits]

theorem Expr.Readable.printsForm {e : Expr} (h : e.Readable) : e.PrintsForm := by
  -- only the print of an integer, a name or a reference runs up to what follows; the other forms close themselves
  induction h with
  | @int v s hv =>
    intro next hend
    obtain ⟨n, hn⟩ := Int.eq_ofNat_of_zero_le hv
    have hlt := v.toInt_lt
    have htext : (Expr.int v s).sexp.toList = Nat.toDigits 10 n := by
      rw [Expr.sexp, ← Nat.toList_repr]
      change (toString v.toInt).toList = _
      rw [hn]
      rfl
    have hform := Form.int .nil (isInteger_toDigits (by omega : n ≤ 9223372036854775807)) hend
    rw [Nat.ofDigitChars_ten_toDigits, ← Int64.ofInt_eq_ofNat, ← hn, Int64.ofInt_toInt] at hform
    rwa [htext, Expr.bare]
  | @name x s hx =>
    intro next hend
    have hform := Form.name .nil hx hend
    rw [String.ofList_toList] at hform
    rwa [Expr.sexp, Expr.bare]
  | @ref e s _ ih =>
    intro next hend
    rw [Expr.sexp, Expr.bare, String.toList_append]
    exact .ref .nil (ih next hend)
  | @call c s hhead _ ih =>
    intro next _
    rw [toList_sexp_call, Expr.bare, Call.bare_eq]
    exact hhead.form (tokenEnds_spaced _ _ _) (items_spaced ih next)
  | @define d s hname hparams _ hne ih =>
    intro next _
    rw [toList_sexp_define d s hne, Expr.bare, Definition.bare_eq]
    have hform := Form.define .nil .nil (tokenEnds_blank _ _) blanks_singleton hname (tokenEnds_blank _ _)
      blanks_singleton (params_intercalate hparams) (items_spaced ih next) (by simpa using hne)
    rw [String.ofList_toList] at hform
    simpa using hform
  | @branch test yes no s hhead _ _ _ ihargs ihyes ihno =>
    intro next _
    have hprints : ∀ e ∈ yes :: no.toList, e.PrintsForm :=
      List.forall_mem_cons.mpr ⟨ihyes, fun e he => ihno e (Option.mem_toList.mp he)⟩
    have hbranches := items_spaced hprints next
    have hbares : (yes :: no.toList).map Expr.bare = yes.bare :: (no.map Expr.bare).toList := by cases no <;> rfl
    rw [hbares] at hbranches
    have htest (rest : List Char) := hhead.form (tokenEnds_blank _ _) (items_intercalate ihargs rest)
    rw [toList_sexp_branch, Expr.bare_branch, Call.bare_eq]
    exact .branch .nil .nil (tokenEnds_blank _ _) ((htest _).blanks_append blanks_singleton) hbranches

/-! ## Prints that are read -/

/-- A text of printed expressions with blanks between them, and with any blanks in front and at the end. -/
inductive Shows : (text : List Char) → List Expr → Prop
  | nil {b : List Char} (hb : Blanks b) : Shows b []
  | cons {b w : List Char} {e : Expr} {es : List Expr} (hb : Blanks b) (hsep : ∀ c ∈ w.head?, isBlank c = true)
      (hs : Shows w es) : Shows (b ++ (e.sexp.toList ++ w)) (e :: es)

theorem Shows.forms {w : List Char} {es : List Expr} (h : Shows w es) (hes : ∀ e ∈ es, e.Readable) :
    Forms w (es.map Expr.bare) := by
  induction h with
  | nil hb => exact .nil hb
  | @cons b w e es hb hsep _ ih =>
    obtain ⟨he, hes⟩ := List.forall_mem_cons.mp hes
    have hend : TokenEnds false w := by
      cases w with
      | nil => trivial
      | cons c w => exact .inl (hsep c rfl)
    rw [List.map_cons, ← List.append_assoc]
    exact .cons ((he.printsForm w hend).blanks_append hb) (ih hes)

/-- A program that is read is read again from a print of its forms. -/
theorem exists_parse_of_print {source print : String} {forms : List Expr} (h : parse source = .ok forms)
    (hprint : Shows print.toList forms) :
    ∃ forms', parse print = .ok forms' ∧ forms'.map Expr.bare = forms.map Expr.bare :=
  exists_parse_of_forms (hprint.forms (readable_of_parse h))

/-- Printed expressions are read as themselves, spans aside. -/
theorem parse_of_shows {source : String} {trees : List Expr} (htrees : ∀ e ∈ trees, e.Readable)
    (h : Shows source.toList trees) :
    ∃ forms, parse source = .ok forms ∧ forms.map Expr.bare = trees.map Expr.bare :=
  exists_parse_of_forms (h.forms htrees)

/-- A definition without parameters, with a test without operands and with nested references. -/
def nestedDefinition : Expr :=
  .define ⟨"f", [], [.branch ⟨"&", [], default⟩ (.ref (.ref (.name "x" default) default) default) none default],
    default⟩ default

/-- A call of an operator with the greatest integer. -/
def greatestCall : Expr := .call ⟨"&", [.int 9223372036854775807 default], default⟩ default

theorem parse_of_shows_nested :
    (∀ e ∈ [nestedDefinition, greatestCall], e.Readable) ∧
    Shows "(def f () (if (& ) &&x))\n(& 9223372036854775807)".toList [nestedDefinition, greatestCall] ∧
    ∃ forms, parse "(def f () (if (& ) &&x))\n(& 9223372036854775807)" = .ok forms ∧
      forms.map Expr.bare = [nestedDefinition, greatestCall].map Expr.bare := by
  have hhead : IsCallHead "&" := ⟨⟨.inr rfl, nofun⟩, by decide, by decide⟩
  have hname : IsIdentifier "f".toList := ⟨rfl, nofun⟩
  have hx : IsIdentifier "x".toList := ⟨rfl, nofun⟩
  have hdefinition : nestedDefinition.Readable := by
    refine .define hname nofun (List.forall_mem_singleton.mpr ?_) (List.cons_ne_nil _ _)
    exact .branch hhead nofun (.ref (.ref (.name hx))) nofun
  have hcall : greatestCall.Readable := .call hhead (List.forall_mem_singleton.mpr (.int (by decide)))
  have hshows : Shows "(def f () (if (& ) &&x))\n(& 9223372036854775807)".toList
      [nestedDefinition, greatestCall] := by
    have hlast : Shows "\n(& 9223372036854775807)".toList [greatestCall] :=
      .cons (b := ['\n']) (e := greatestCall) (w := []) (List.forall_mem_singleton.mpr rfl) nofun (.nil .nil)
    refine .cons (b := []) (e := nestedDefinition) .nil ?_ hlast
    rintro _ ⟨⟩
    rfl
  have htrees := List.forall_mem_cons.mpr ⟨hdefinition, List.forall_mem_singleton.mpr hcall⟩
  exact ⟨htrees, hshows, parse_of_shows htrees hshows⟩

end SmallLisp
