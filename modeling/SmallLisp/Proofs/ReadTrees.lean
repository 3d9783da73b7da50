import SmallLisp.Proofs.GrammarSoundness

/-! # Trees that are read

Not every expression is the expression of some text. In those that are, names are identifiers, no integer is
negative, and what stands before the operands of a call is neither of the words that make another form of it. The
reader refuses a definition without a body, so no definition is empty, at any depth.
-/
namespace SmallLisp

structure IsCallHead (head : String) : Prop where
  operand : IsOperand head.toList
  ne_def : head ≠ "def"
  ne_if : head ≠ "if"

/-- An expression of the shape of those that texts are read as. -/
inductive Expr.Readable : Expr → Prop
  | int {v : Int64} {s : Span} (hv : 0 ≤ v.toInt) : Readable (.int v s)
  | name {x : String} {s : Span} (hx : IsIdentifier x.toList) : Readable (.name x s)
  | ref {e : Expr} {s : Span} (h : e.Readable) : Readable (.ref e s)
  | call {c : Call} {s : Span} (hhead : IsCallHead c.head) (hargs : ∀ a ∈ c.args, a.Readable) : Readable (.call c s)
  | define {d : Definition} {s : Span} (hname : IsIdentifier d.name.toList)
      (hparams : ∀ p ∈ d.params, IsIdentifier p.toList) (hbody : ∀ e ∈ d.body, e.Readable)
      (hne : d.body ≠ []) : Readable (.define d s)
  | branch {test : Call} {yes : Expr} {no : Option Expr} {s : Span} (hhead : IsCallHead test.head)
      (hargs : ∀ a ∈ test.args, a.Readable) (hyes : yes.Readable) (hno : ∀ e ∈ no, e.Readable) :
    Readable (.branch test yes no s)

def Part.Readable : Part → Prop
  | .form e => e.Readable
  | .items es => ∀ e ∈ es, e.Readable

theorem Params.isIdentifier {w : List Char} {xs : List String} (h : Params w xs) :
    ∀ x ∈ xs, IsIdentifier x.toList := by
  induction h with
  | close _ => exact nofun
  | cons _ hx _ _ ih =>
    refine List.forall_mem_cons.mpr ⟨?_, ih⟩
    rwa [String.toList_ofList]

theorem isCallHead_ofList {x : List Char} (hx : IsOperand x) (hdef : x ≠ ['d', 'e', 'f']) (hif : x ≠ ['i', 'f']) :
    IsCallHead (String.ofList x) := by
  refine ⟨by rwa [String.toList_ofList], ?_, ?_⟩
  all_goals
    rintro h
    rw [← String.toList_inj, String.toList_ofList] at h
    contradiction

theorem PartAt.readable {o : Nat} {w next : List Char} {part : Part} (h : PartAt o w part next) : part.Readable := by
  induction h with
  | int hds _ =>
    refine .int ?_
    rw [Int64.toInt_ofNat_of_lt (Nat.lt_of_le_pred (by decide) hds.bound)]
    exact Int.natCast_nonneg _
  | name hx _ => exact .name (by rwa [String.toList_ofList])
  | ref _ _ ih => exact .ref ih
  | define _ _ _ hx _ _ hps _ hne _ ih => exact .define (by rwa [String.toList_ofList]) hps.isIdentifier ih hne
  | branch _ _ _ _ _ _ iht ihw =>
    cases iht with
    | call hhead hargs =>
      obtain ⟨hyes, hno⟩ := List.forall_mem_cons.mp ihw
      exact .branch hhead hargs hyes fun e he => hno e (Option.mem_toList.mpr he)
  | call _ hx hdef hif _ _ _ ih => exact .call (isCallHead_ofList hx hdef hif) ih
  | close _ => exact nofun
  | item _ _ _ ih ihs => exact List.forall_mem_cons.mpr ⟨ih, ihs⟩

theorem FormsAt.readable {o : Nat} {w : List Char} {es : List Expr} (h : FormsAt o w es) :
    ∀ e ∈ es, e.Readable := by
  induction h with
  | nil _ => exact nofun
  | cons _ h _ ih => exact List.forall_mem_cons.mpr ⟨h.readable, ih⟩

theorem readable_of_parse {source : String} {forms : List Expr} (h : parse source = .ok forms) :
    ∀ e ∈ forms, e.Readable := (formsAt_of_parse h).readable

/-! ## Bodies -/

theorem body_ne_nil_of_mem_sitesEach {es : List Expr} {visible : List String}
    (h : ∀ e ∈ es, ∀ site ∈ e.sites visible, site.definition.body ≠ []) :
    ∀ site ∈ sitesEach visible es, site.definition.body ≠ [] := by
  intro site hsite
  obtain ⟨e, he, hs⟩ := mem_sitesEach.mp hsite
  exact h e he site hs

/-- Every definition in a readable expression has a body. -/
theorem Expr.Readable.body_ne_nil {e : Expr} (h : e.Readable) :
    ∀ visible, ∀ site ∈ e.sites visible, site.definition.body ≠ [] := by
  induction h with
  | int _ | name _ => exact fun _ => nofun
  | ref _ ih => simpa only [Expr.sites] using ih
  | call _ _ ih =>
    intro visible
    rw [Expr.sites_call]
    exact body_ne_nil_of_mem_sitesEach fun a ha => ih a ha visible
  | @define d _ _ _ _ hne ih =>
    intro visible
    rw [Expr.sites, Definition.sites_eq]
    refine List.forall_mem_append.mpr ⟨body_ne_nil_of_mem_sitesEach fun e he => ih e he _, ?_⟩
    exact List.forall_mem_singleton.mpr hne
  | branch _ _ _ _ ihargs ihyes ihno =>
    intro visible
    rw [Expr.sites_branch]
    refine List.forall_mem_append.mpr ⟨List.forall_mem_append.mpr ⟨?_, ihyes visible⟩, ?_⟩
    · exact body_ne_nil_of_mem_sitesEach fun a ha => ihargs a ha visible
    · exact body_ne_nil_of_mem_sitesEach fun e he => ihno e (Option.mem_toList.mp he) visible

/-- In a program that was read every definition has a body. -/
theorem body_ne_nil_of_parse {source : String} {program : List Expr} (h : parse source = .ok program) :
    ∀ d ∈ definitions program, d.body ≠ [] := by
  intro d hd
  obtain ⟨site, hsite, rfl⟩ := List.mem_map.mp hd
  exact body_ne_nil_of_mem_sitesEach (fun e he => (readable_of_parse h e he).body_ne_nil []) site hsite

end SmallLisp
