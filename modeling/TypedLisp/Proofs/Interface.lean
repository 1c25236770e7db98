import Mathlib.Data.Prod.Lex
import TypedLisp.Proofs.Arrow
import TypedLisp.Proofs.Reading.Layout
import TypedLisp.Proofs.TypeErasure

/-!
# Interfaces agree with types

The expander nests the parameters of a function to the right, inference types each function of the
nest on its own, and an interface lists the parameters of the whole nest as those of one function.
The types agree: up to spans and up to how arrows are grouped, the type that is inferred for a
constant is the arrow of the types that its interface declares.  The proof goes along the chain of
functions.  At each of them the type is walked along the types of the parameters, and a walk takes
arguments off a nest of one-argument arrows.
-/

namespace TypedLisp

open Typing (Tree Sketch Walks IsRead WellTyped FunctionTyped typeTree? form?)

variable {H : Type}

/-! ### The order of names -/

/-- One name comes before another one if its UTF-8 encoding does. -/
def BytesBefore (a b : String) : Prop :=
  a.toUTF8.data.toList < b.toUTF8.data.toList

lemma utf8EncodeChar_append_lt {c d : Char} (h : c < d) (xs ys : List UInt8) :
    String.utf8EncodeChar c ++ xs < String.utf8EncodeChar d ++ ys := by
  have hlt : c.val.toNat < d.val.toNat := h
  have hvalid : d.val.toNat < 0x110000 := by
    rcases d.valid with h | h <;> simp at h ⊢ <;> omega
  rw [String.utf8EncodeChar, String.utf8EncodeChar]
  generalize c.val.toNat = m at *
  generalize d.val.toNat = n at *
  -- the payloads are the digits to the base 64
  have hdiv (k : Nat) : k / 4096 = k / 64 / 64 ∧ k / 262144 = k / 64 / 64 / 64 := by omega
  -- the leading bits of a byte and its payload do not overlap
  have hbyte {k size lead : Nat} (hpos : 0 < size) (hle : size + lead ≤ 256) :
      (k % size + lead) % 2 ^ 8 = k % size + lead := by
    have := Nat.mod_lt k hpos
    omega
  split_ifs <;> simp (disch := omega) only [List.cons_append, List.nil_append,
    List.cons_lt_cons_iff, UInt8.lt_iff_toNat_lt, UInt8.toNat_ofNat', ← UInt8.toNat_inj, hbyte,
    (hdiv _).1, (hdiv _).2] <;> omega

lemma flatMap_utf8EncodeChar_lt {cs ds : List Char} (h : cs < ds) :
    cs.flatMap String.utf8EncodeChar < ds.flatMap String.utf8EncodeChar := by
  induction h with
  | @nil d ds =>
    rw [List.flatMap_cons, List.flatMap_nil]
    cases hd : String.utf8EncodeChar d with
    | nil => exact absurd hd String.utf8EncodeChar_ne_nil
    | cons b bs => exact List.nil_lt_cons _ _
  | rel h => exact utf8EncodeChar_append_lt h _ _
  | cons _ ih => exact List.append_left_lt ih

/-- Names in the order of their code points are in the order of their encodings. -/
lemma bytesBefore_of_lt {a b : String} (h : a < b) : BytesBefore a b := by
  have hbytes (s : String) : s.toUTF8.data.toList = s.toList.flatMap String.utf8EncodeChar := by
    conv => lhs; rw [← String.ofList_toList (s := s)]
    rw [String.toUTF8_eq_toByteArray, String.toByteArray_ofList, List.utf8Encode,
      List.data_toByteArray, List.toList_toArray]
  rw [BytesBefore, hbytes, hbytes]
  exact flatMap_utf8EncodeChar_lt (String.lt_iff_toList_lt.1 h)

/-! ### Chains of functions -/

namespace Node

/-- A node is a chain of nested functions with the given parameters, from the outside in, around a
body that is no function. -/
inductive Chain : Node H → List (Node H) → Node H → Prop where
  | body {n : Node H} (h : n.isLambda = false) : Chain n [] n
  | function {n body innermost : Node H} {params more : List (Node H)}
    (h : n.lambda? = some (params, body)) (rest : Chain body more innermost) :
    Chain n (params ++ more) innermost

/-- A type has a part of which nothing is known, be it in an annotation. -/
inductive HasNull : Node H → Prop where
  | null (span : Option Span) (type : Option (Node H)) : HasNull ⟨.null, span, type⟩
  | item {n : Node H} {items : List (Node H)} (span : Option Span) (type : Option (Node H))
    (hn : n ∈ items) (h : HasNull n) : HasNull ⟨.list items, span, type⟩
  | quoted {n : Node H} (span : Option Span) (type : Option (Node H)) (h : HasNull n) :
    HasNull ⟨.quoted n, span, type⟩
  | type {t : Node H} (kind : Kind H) (span : Option Span) (h : HasNull t) :
    HasNull ⟨kind, span, some t⟩

end Node

/-! ### Types along a chain -/

open Node (canonical arrows)

lemma Typing.Tree.node_bare (t : Tree) : (t.bare.node : Node H) = t.node.erase .ofSpans := by
  induction t using Tree.induction with
  | unknown => simp
  | atom name span => rfl
  | list items span ih =>
    have hitems : (items.map Tree.bare).map (node (H := H)) =
        (items.map Tree.node).map (Node.erase .ofSpans) := by
      simpa using ih
    rw [Tree.bare_list, Tree.node_list, Tree.node_list, Node.erase_list, hitems]
    rfl

/-- A nest of one-argument arrows is the same for a tree and for the tree without its spans. -/
lemma canonical_node_bare (t : Tree) : (t.bare.node : Node H).canonical = t.node.canonical := by
  rw [canonical, canonical, Tree.node_bare, ← Node.erase_curry, Node.erase_erase]
  rfl

lemma canonical_node_of_isArrow {f r : Tree} {args : List Tree} (h : f.IsArrow args r) :
    (f.node : Node H).canonical = arrows (args.map fun t => t.node.canonical) r.node.canonical := by
  obtain ⟨hargs, headSpan, span, rfl⟩ := h
  have hne : args.map (Typing.Tree.node (H := H)) ≠ [] := fun h => hargs (List.map_eq_nil_iff.1 h)
  have hnode := Node.canonical_arrow headSpan span hne (r.node : Node H)
  rw [List.map_map] at hnode
  simpa [Function.comp_def] using hnode

/-- To walk a type along arguments is to take them off its nest of one-argument arrows. -/
theorem canonical_node_of_walks {f t : Tree} {ts : List Tree} (h : Walks f ts t) :
    (f.node : Node H).canonical = arrows (ts.map fun t => t.node.canonical) t.node.canonical := by
  induction h with
  | done t => rfl
  | through h _ ih => rw [canonical_node_of_isArrow h, ih, List.map_append, Node.arrows_append]
  | partway _ h ht =>
    rw [canonical_node_of_isArrow h, canonical_node_of_isArrow ht, List.map_append,
      Node.arrows_append]

section

variable {s : Typing.Store}

lemma Node.type_of_stored? {n : Node H} {t : Tree} (h : n.type? = t.stored?) : n.type = t.node := by
  rw [Node.type, h]
  cases t <;> rfl

lemma canonical_type_of_isRead {n : Node H} {v : Typing.Var} {t : Tree} (hn : IsRead s v n)
    (ht : form? n = some t) : n.type.canonical = t.node.canonical := by
  obtain ⟨u, -, hu⟩ := hn
  rw [form?, Typing.typeTree?_of_stored? hu] at ht
  obtain rfl := Option.some.inj ht
  rw [Node.type_of_stored? hu, canonical_node_bare]

lemma map_canonical_type_of_outlines {ts : List (Sketch H)} {ns : List (Node H)} {us : List Tree}
    (hns : List.Forall₂ (Sketch.Outlines (IsRead s)) ts ns) (h : ns.map form? = us.map some) :
    ns.map (fun n => n.type.canonical) = us.map fun t => t.node.canonical := by
  induction hns generalizing us with
  | nil =>
    obtain rfl := List.map_eq_nil_iff.1 h.symm
    rfl
  | cons hn _ ih =>
    cases us with
    | nil => cases h
    | cons u us =>
      obtain ⟨hu, hus⟩ := List.cons.inj h
      rw [List.map_cons, List.map_cons, ih hus, canonical_type_of_isRead hn.own hu]

/-- The type of a chain of typed functions takes the parameters in turn, up to the type of the
innermost body. -/
theorem canonical_type_of_chain {n body : Node H} {params : List (Node H)}
    (hchain : n.Chain params body) {k : Sketch H} (hn : k.Outlines (IsRead s) n)
    {scope : Typing.Scope} (hwell : WellTyped form? scope n) :
    n.type.canonical = arrows (params.map fun p => p.type.canonical) body.type.canonical := by
  induction hchain generalizing k scope with
  | body h => rfl
  | @function n body innermost params more h _ ih =>
    obtain ⟨head, paramsSpan, paramsType, span, type, rfl, hhead⟩ := Node.exists_of_lambda? h
    obtain ⟨ts, v, rfl, hread, hitems⟩ := hn.exists_list
    obtain _ | ⟨-, _ | ⟨hparams, _ | ⟨hbody, -⟩⟩⟩ := hitems
    obtain ⟨leaves, -, rfl, -, hleaves⟩ := hparams.exists_list
    rw [Typing.wellTyped_function hhead] at hwell
    obtain ⟨⟨ps, hps, -, -, f, us, t, hf, hus, ht, hwalk⟩, hwell⟩ := hwell
    obtain rfl : params = ps := Option.some.inj hps
    rw [canonical_type_of_isRead hread hf, canonical_node_of_walks hwalk, List.map_append,
      Node.arrows_append, ← ih hbody hwell, canonical_type_of_isRead hbody.own ht,
      map_canonical_type_of_outlines hleaves hus]

end

/-! ### Declarations -/

/-- A declared function describes a constant: its parameters are those of the chain of the constant,
with their types, its result type is that of the innermost body, all these types are known, and the
type of the constant is their arrow, up to spans and up to how arrows are grouped. -/
structure FunctionDecl.Describes (f : FunctionDecl H) (c : Node H) : Prop where
  chain : ∃ params, c.Chain params f.body ∧
    List.Forall₂ (fun p q => p.atom? = some q.1 ∧ p.type = q.2) params f.params
  body_not_lambda : f.body.isLambda = false
  body_type : f.body.type = f.ret
  known : ∀ type ∈ f.ret :: f.params.map Prod.snd, ¬ type.HasNull
  type_agrees : c.type.curry.Agrees
    (Node.list (.atom Node.arrowName none :: (f.params.map Prod.snd ++ [f.ret])) none).curry

lemma Typing.Sketch.Outlines.of_chain {P : Typing.Var → Node H → Prop} {k : Sketch H}
    {n body : Node H} {params : List (Node H)} (hn : k.Outlines P n)
    (hchain : n.Chain params body) : ∀ m ∈ body :: params, ∃ v, P v m := by
  induction hchain generalizing k with
  | body h => simpa using ⟨_, hn.own⟩
  | @function n body innermost params more h _ ih =>
    obtain ⟨head, paramsSpan, paramsType, span, type, rfl, -⟩ := Node.exists_of_lambda? h
    obtain ⟨ts, v, rfl, -, hitems⟩ := hn.exists_list
    obtain _ | ⟨-, _ | ⟨hparams, _ | ⟨hbody, -⟩⟩⟩ := hitems
    obtain ⟨leaves, -, rfl, -, hleaves⟩ := hparams.exists_list
    intro m hm
    rw [List.mem_cons, List.mem_append] at hm
    rcases hm with rfl | hm | hm
    · exact ih hbody _ List.mem_cons_self
    · obtain ⟨leaf, -, hleaf⟩ := exists_left_of_forall₂ hleaves hm
      exact ⟨_, hleaf.own⟩
    · exact ih hbody m (List.mem_cons_of_mem _ hm)

lemma Node.allResolved_iff {ns : List (Node H)} :
    Node.allResolved ns = true ↔ ∀ n ∈ ns, n.isResolved = true := by
  induction ns with
  | nil => simp [Node.allResolved]
  | cons n ns ih => simp [Node.allResolved, ih]

lemma not_hasNull_node {t : Tree} (h : (t.node : Node H).isResolved) :
    ¬ (t.node : Node H).HasNull := by
  induction t using Tree.induction with
  | unknown => cases h
  | atom name span => nofun
  | list items span ih =>
    rw [Tree.node_list] at h ⊢
    intro hnull
    cases hnull with
    | item _ _ hn hnull =>
      obtain ⟨t, ht, rfl⟩ := List.mem_map.1 hn
      exact ih t ht (Node.allResolved_iff.1 h _ hn) hnull

lemma resolvedType_eq_ok_iff {name what : String} {part type : Node H} :
    resolvedType name what part = .ok type ↔ part.type = type ∧ type.isResolved := by
  rw [resolvedType]
  split
  · next h =>
    constructor
    · rintro ⟨⟩
      exact ⟨rfl, h⟩
    · rintro ⟨rfl, -⟩
      rfl
  · next h =>
    constructor
    · rintro ⟨⟩
    · rintro ⟨rfl, h'⟩
      exact absurd h' h

lemma of_declareParam_eq_ok {name : String} {param : Node H} {p : String × Node H}
    (h : declareParam name param = .ok p) :
    param.atom? = some p.1 ∧ param.type = p.2 ∧ p.2.isResolved := by
  rw [declareParam] at h
  split at h
  · cases h
  · next hatom =>
    obtain ⟨type, htype, h⟩ := Except.exists_of_bind_eq_ok h
    obtain rfl := Except.ok.inj h
    exact ⟨hatom, resolvedType_eq_ok_iff.1 htype⟩

lemma exists_chain_of_declareChain_eq_ok {name : String} {n body : Node H}
    {ps : List (String × Node H)} (h : declareChain name n = .ok (ps, body)) :
    ∃ params, n.Chain params body ∧
      List.Forall₂ (fun param p => declareParam name param = .ok p) params ps := by
  -- what the chain stops at is its own innermost body
  have stop {n : Node H} {ps : List (String × Node H)} (hlambda : n.lambda? = none)
      (h : declareChain name n = .ok (ps, body)) :
      ∃ params, n.Chain params body ∧
        List.Forall₂ (fun param p => declareParam name param = .ok p) params ps := by
    rw [declareChain_eq, hlambda] at h
    obtain ⟨rfl, rfl⟩ := Prod.mk.inj (Except.ok.inj h)
    exact ⟨[], .body (by rw [Node.isLambda, hlambda]; rfl), .nil⟩
  induction n using Node.induction generalizing ps with
  | leaf kind span type hkind => exact stop (Node.lambda?_eq_none hkind) h
  | list items span type ih =>
    cases hlambda : (⟨.list items, span, type⟩ : Node H).lambda? with
    | none => exact stop hlambda h
    | some f =>
      rw [declareChain_eq, hlambda] at h
      obtain ⟨own, hown, h⟩ := Except.exists_of_bind_eq_ok h
      obtain ⟨⟨more, innermost⟩, hmore, h⟩ := Except.exists_of_bind_eq_ok h
      obtain ⟨rfl, rfl⟩ := Prod.mk.inj (Except.ok.inj h)
      obtain ⟨items', hitems, hbody⟩ := exists_items_of_lambda? hlambda
      obtain rfl : items = items' := Option.some.inj hitems
      obtain ⟨params, hchain, hparams⟩ := ih f.2 hbody hmore
      exact ⟨f.1 ++ params, .function hlambda hchain,
        List.rel_append (Except.mapM_eq_ok_iff.1 hown) hparams⟩

lemma Node.Chain.isLambda_eq_false {n body : Node H} {params : List (Node H)}
    (h : n.Chain params body) : body.isLambda = false := by
  induction h with
  | body h => exact h
  | function _ _ ih => exact ih

lemma Node.Chain.ne_nil_of_wellTyped {n body : Node H} {params : List (Node H)}
    (h : n.Chain params body) (hlambda : n.isLambda) {scope : Typing.Scope}
    (hwell : WellTyped form? scope n) : params ≠ [] := by
  cases h with
  | body h => rw [h] at hlambda; cases hlambda
  | function h _ =>
    obtain ⟨head, paramsSpan, paramsType, span, type, rfl, hhead⟩ := Node.exists_of_lambda? h
    obtain ⟨⟨ps, hps, hne, -⟩, -⟩ := (Typing.wellTyped_function hhead).1 hwell
    obtain rfl := Option.some.inj hps
    simp [hne]

/-- What is declared for a typed function describes it. -/
theorem describes_of_declare_eq_ok {name : String} {n c : Node H} {f : FunctionDecl H}
    (hinfer : Typing.infer n = .ok c) (hlambda : c.isLambda) (h : declare name c = .ok f) :
    f.name = name ∧ f.Describes c := by
  obtain ⟨⟨ps, body⟩, hchain, h⟩ := Except.exists_of_bind_eq_ok h
  obtain ⟨ret, hret, h⟩ := Except.exists_of_bind_eq_ok h
  obtain rfl := Except.ok.inj h
  obtain ⟨params, hchain, hparams⟩ := exists_chain_of_declareChain_eq_ok hchain
  obtain ⟨rfl, hresolved⟩ := resolvedType_eq_ok_iff.1 hret
  have hdeclared := hparams.imp fun p q h => of_declareParam_eq_ok h
  have htypes : ps.map Prod.snd = params.map Node.type := by
    rw [← List.forall₂_eq_eq_eq, List.forall₂_map_left_iff, List.forall₂_map_right_iff]
    exact (hdeclared.imp fun p q h => h.2.1.symm).flip
  -- the types in the chain have been read off a store, so there are no annotations in them
  obtain ⟨k, s, -, -, -, houtline⟩ := Typing.of_infer_eq_ok hinfer
  have hwell := (Typing.consistent_of_infer Typing.keepsArrows_bare (fun _ => rfl) hinfer).1
  have htree : ∀ m ∈ body :: params, ∃ t : Tree, m.type = t.node := by
    intro m hm
    obtain ⟨v, t, -, ht⟩ := houtline.of_chain hchain m hm
    exact ⟨t, Node.type_of_stored? ht⟩
  refine ⟨rfl, ⟨params, hchain, hdeclared.imp fun p q h => ⟨h.1, h.2.1⟩⟩,
    hchain.isLambda_eq_false, rfl, ?_, ?_⟩
  · intro type htype
    obtain ⟨m, hm, rfl, hknown⟩ : ∃ m ∈ body :: params, type = m.type ∧ type.isResolved := by
      rcases List.mem_cons.1 htype with rfl | htype
      · exact ⟨body, List.mem_cons_self, rfl, hresolved⟩
      · obtain ⟨q, hq, rfl⟩ := List.mem_map.1 htype
        obtain ⟨p, hp, -, hpq, hknown⟩ := exists_left_of_forall₂ hdeclared hq
        exact ⟨p, List.mem_cons_of_mem _ hp, hpq.symm, hknown⟩
    obtain ⟨t, ht⟩ := htree m hm
    rw [ht] at hknown ⊢
    exact not_hasNull_node hknown
  · have hne : params.map Node.type ≠ [] := fun h =>
      hchain.ne_nil_of_wellTyped hlambda hwell (List.map_eq_nil_iff.1 h)
    rw [htypes]
    have harrow := Node.canonical_arrow none none hne body.type
    have hchain := canonical_type_of_chain hchain houtline hwell
    rw [List.map_map] at harrow
    exact hchain.trans harrow.symm

/-! ### Interfaces -/

lemma forall₂_declare_of_ofConsts_eq_ok {moduleName : String} {consts : Scope H}
    {interface : Interface H} (h : Interface.ofConsts moduleName consts = .ok interface) :
    List.Forall₂ (fun p f => declare p.1 p.2 = .ok f) (consts.entries.filter fun p => p.2.isLambda)
      interface.functions := by
  obtain ⟨functions, hfunctions, h⟩ := Except.exists_of_bind_eq_ok h
  obtain rfl := Except.ok.inj h
  exact Except.mapM_eq_ok_iff.1 hfunctions

/-- **The interface agrees with the inferred types.**  The functions of an interface are the
constants that are literal functions, once each and in the byte order of their names, and each of
them describes its constant. -/
theorem interface_describes [Host H] {depth : Nat} {source moduleName : String}
    {checked : Expansion H} {interface : Interface H}
    (hchecked : checkSource depth source = .ok checked)
    (hinterface : Interface.ofConsts moduleName checked.consts = .ok interface) :
    (∀ name, (∃ f ∈ interface.functions, f.name = name) ↔
        ∃ c, checked.consts.get? name = some c ∧ c.isLambda) ∧
      interface.functions.Pairwise (fun f g => BytesBefore f.name g.name) ∧
      ∀ f ∈ interface.functions, ∃ c, checked.consts.get? f.name = some c ∧ f.Describes c := by
  obtain ⟨program, -, htypecheck⟩ := Except.exists_of_bind_eq_ok hchecked
  obtain ⟨consts, hconsts, htypecheck⟩ := Except.exists_of_bind_eq_ok htypecheck
  obtain ⟨forms, -, htypecheck⟩ := Except.exists_of_bind_eq_ok htypecheck
  obtain rfl := Except.ok.inj htypecheck
  have hinfer := Bindings.forall₂_entries_of_mapM_eq_ok hconsts
  have hdeclare : List.Forall₂ (fun p f => f.name = p.1 ∧ f.Describes p.2)
      (consts.entries.filter fun p => p.2.isLambda) interface.functions := by
    refine forall₂_imp_of_mem ?_ (forall₂_declare_of_ofConsts_eq_ok hinterface)
    intro p hp f _ h
    obtain ⟨hp, hlambda⟩ := List.mem_filter.1 hp
    obtain ⟨q, -, -, hq⟩ := exists_left_of_forall₂ hinfer hp
    exact describes_of_declare_eq_ok hq hlambda h
  refine ⟨fun name => ⟨?_, ?_⟩, ?_, ?_⟩
  · rintro ⟨f, hf, rfl⟩
    obtain ⟨p, hp, hname, -⟩ := exists_left_of_forall₂ hdeclare hf
    obtain ⟨hp, hlambda⟩ := List.mem_filter.1 hp
    exact ⟨p.2, Bindings.get?_eq_some_iff.2 (hname ▸ hp), hlambda⟩
  · rintro ⟨c, hc, hlambda⟩
    have hmem : (name, c) ∈ consts.entries.filter fun p => p.2.isLambda :=
      List.mem_filter.2 ⟨Bindings.get?_eq_some_iff.1 hc, hlambda⟩
    obtain ⟨f, hf, hname, -⟩ := exists_right_of_forall₂ hdeclare hmem
    exact ⟨f, hf, hname⟩
  · have hnames : interface.functions.map FunctionDecl.name =
        (consts.entries.filter fun p => p.2.isLambda).map Prod.fst := by
      rw [← List.forall₂_eq_eq_eq, List.forall₂_map_left_iff, List.forall₂_map_right_iff]
      exact (hdeclare.imp fun p f h => h.1).flip
    have hsorted := (consts.sorted.filter fun p => p.2.isLambda).imp bytesBefore_of_lt
    rwa [← List.pairwise_map, ← hnames, List.pairwise_map] at hsorted
  · intro f hf
    obtain ⟨p, hp, hname, hdescribes⟩ := exists_left_of_forall₂ hdeclare hf
    exact ⟨p.2, Bindings.get?_eq_some_iff.2 (hname ▸ (List.mem_filter.1 hp).1), hdescribes⟩

/-- Two functions, one of which takes a partly applied arrow, and a constant that is none. -/
theorem interface_describes_of_apply :
    ∃ (checked : Expansion Empty) (interface : Interface Empty),
      checkSource 1 "(def k (lambda (x : t y : u) x) n 7 ap (lambda (f : (-> t u v) x) (f x)))" =
        .ok checked ∧
      Interface.ofConsts "m" checked.consts = .ok interface ∧
      interface.functions.map FunctionDecl.name = ["ap", "k"] ∧
      (∀ name, (∃ f ∈ interface.functions, f.name = name) ↔
        ∃ c, checked.consts.get? name = some c ∧ c.isLambda) ∧
      interface.functions.Pairwise (fun f g => BytesBefore f.name g.name) ∧
      ∀ f ∈ interface.functions, ∃ c, checked.consts.get? f.name = some c ∧ f.Describes c := by
  obtain ⟨checked, interface, hchecked, hinterface, hnames⟩ :
      ∃ (checked : Expansion Empty) (interface : Interface Empty),
        checkSource 1 "(def k (lambda (x : t y : u) x) n 7 ap (lambda (f : (-> t u v) x) (f x)))" =
          .ok checked ∧
        Interface.ofConsts "m" checked.consts = .ok interface ∧
        interface.functions.map FunctionDecl.name = ["ap", "k"] :=
    ⟨_, _, by cbv, by cbv, rfl⟩
  exact ⟨checked, interface, hchecked, hinterface, hnames, interface_describes hchecked hinterface⟩

end TypedLisp
