import Mathlib.Algebra.Group.Nat.Defs
import RegisterCode.Proofs.LocatedLowering
import RegisterCode.Proofs.LoweredPrograms

/-! Source maps give back the lines of the source. Compiling with a map succeeds exactly
if lowering without one does, and what the map has for a generated line is the line
that the instruction has without a map. -/
namespace RegisterCode

open Action ChunkBuilder Lower

variable {α β : Type}

namespace SourceMap

def lineOf (map : SourceMap) (generated : UInt32) : UInt32 :=
  match generated.toNat with
  | 0 => 0
  | index + 1 => (map.mappings[index]?.map Mapping.line).getD 0

theorem lineOf_add_of_le {map : SourceMap} {mapping : Mapping} {generated : UInt32}
    (h : generated.toNat ≤ map.size) :
    (map.add mapping).lineOf generated = map.lineOf generated := by
  unfold lineOf add
  cases hindex : generated.toNat with
  | zero => rfl
  | succ index =>
    have hne : index ≠ map.mappings.size := by
      unfold size at h
      omega
    simp [Array.getElem?_push, hne]

theorem lineOf_add_last {map : SourceMap} {mapping : Mapping} {generated : UInt32}
    (h : generated.toNat = map.size + 1) : (map.add mapping).lineOf generated = mapping.line := by
  unfold lineOf add
  rw [h]
  simp [size]

/-- Lines beyond the map, which were never given out, become zero. -/
def clip (map : SourceMap) (line : UInt32) : UInt32 :=
  if line.toNat ≤ map.size then line else 0

theorem clip_of_le {map : SourceMap} {line : UInt32} (h : line.toNat ≤ map.size) :
    map.clip line = line :=
  if_pos h

theorem toNat_clip_le (map : SourceMap) (line : UInt32) : (map.clip line).toNat ≤ map.size := by
  unfold clip
  split
  · assumption
  · exact Nat.zero_le _

theorem size_add (map : SourceMap) (mapping : Mapping) : (map.add mapping).size = map.size + 1 :=
  Array.size_push mapping

end SourceMap

namespace ChunkBuilder

def plain (map : SourceMap) (b : ChunkBuilder) : ChunkBuilder :=
  b.seen map.lineOf b.options none 1

/-- All lines up to the size of the map have been given out, one for each mapping, and
no function has another one. -/
structure Numbered (b : ChunkBuilder) (map : SourceMap) : Prop where
  map_eq : b.map = some map
  generatedLine : b.generatedLine = .ofNat (map.size + 1)
  mappings : ∀ (index : Nat) (mapping : Mapping), map.mappings[index]? = some mapping →
    mapping.generatedLine = .ofNat (index + 1) ∧ mapping.path = b.options.sourcePath
  given : ∀ rename, (∀ line, line.toNat ≤ map.size → rename line = line) →
    b.seen rename b.options b.map b.generatedLine = b

/-- With the map and without it the operation fails, or it succeeds with the same value
and the chunk goes on without the map as it does with it. At most `places` lines are
given out. -/
def Parallel (places : Nat) (action : Lower α) : Prop :=
  ∀ b map, b.Numbered map → map.size + places < 2 ^ 32 - 1 →
    (action.result? b = none ∧ action.result? (b.plain map) = none) ∨
    ∃ value b' map', action.result? b = some (value, b') ∧
      action.result? (b.plain map) = some (value, b'.plain map') ∧
      b'.Numbered map' ∧ b'.options = b.options ∧ map'.size ≤ map.size + places

variable {places more : Nat}

theorem Parallel.mono {action : Lower α} (h : Parallel places action) (hle : places ≤ more) :
    Parallel more action := by
  intro b map hb hroom
  rcases h b map hb (by omega) with hfails | ⟨value, b', map', hrun, hplain, hb', hoptions, hsize⟩
  · exact .inl hfails
  · exact .inr ⟨value, b', map', hrun, hplain, hb', hoptions, by omega⟩

theorem Parallel.bind {action : Lower α} {next : α → Lower β} (h : Parallel places action)
    (hnext : ∀ value, Parallel more (next value)) : Parallel (places + more) (action >>= next) := by
  intro b map hb hroom
  rw [result?_bind, result?_bind]
  rcases h b map hb (by omega) with
    ⟨hrun, hplain⟩ | ⟨value, b', map', hrun, hplain, hb', hoptions, hsize⟩
  · rw [hrun, hplain]
    exact .inl ⟨rfl, rfl⟩
  · rw [hrun, hplain]
    rcases hnext value b' map' hb' (by omega) with
      hfails | ⟨last, b₂, map₂, hrun₂, hplain₂, hb₂, hoptions₂, hsize₂⟩
    · exact .inl hfails
    · exact .inr ⟨last, b₂, map₂, hrun₂, hplain₂, hb₂, hoptions₂.trans hoptions, by omega⟩

theorem Steady.parallel {action : Lower α} (h : Steady action) : Parallel 0 action := by
  intro b map hb _
  have hplain : action.result? (b.plain map) =
      (action.result? b).map fun (value, b') => (value, b'.seen map.lineOf b.options none 1) :=
    h map.lineOf b.options none 1 b
  cases hrun : action.result? b with
  | none =>
    rw [hrun] at hplain
    exact .inl ⟨rfl, hplain⟩
  | some result =>
    obtain ⟨value, b'⟩ := result
    -- a renaming that leaves the chunk as it is leaves what becomes of it as it is
    have hkept : ∀ rename, (∀ line, line.toNat ≤ map.size → rename line = line) →
        b'.seen rename b.options b.map b.generatedLine = b' := by
      intro rename hrename
      have hfixed := h rename b.options b.map b.generatedLine b
      rw [hb.given rename hrename, hrun] at hfixed
      simpa using hfixed.symm
    have hsame := hkept id fun _ _ => rfl
    have hoptions : b'.options = b.options := by rw [← hsame]; rfl
    have hmap : b'.map = b.map := by rw [← hsame]; rfl
    have hline : b'.generatedLine = b.generatedLine := by rw [← hsame]; rfl
    rw [hrun] at hplain
    refine .inr ⟨value, b', map, rfl, ?_, ?_, hoptions, Nat.le_refl _⟩
    · rw [hplain, plain, hoptions, Option.map_some]
    · refine ⟨hmap.trans hb.map_eq, hline.trans hb.generatedLine, ?_, ?_⟩
      · rw [hoptions]
        exact hb.mappings
      · rw [hoptions, hmap, hline]
        exact hkept

theorem Steady.bind_parallel {action : Lower α} {next : α → Lower β} (h : Steady action)
    (hnext : ∀ value, Parallel places (next value)) : Parallel places (action >>= next) :=
  (h.parallel.bind hnext).mono (by omega)

theorem Parallel.bind_steady {action : Lower α} {next : α → Lower β} (h : Parallel places action)
    (hnext : ∀ value, Steady (next value)) : Parallel places (action >>= next) :=
  h.bind fun value => (hnext value).parallel

theorem parallel_get_bind {next : ChunkBuilder → Lower α}
    (hnext : ∀ map b, next (b.plain map) = next b) (h : ∀ seen, Parallel places (next seen)) :
    Parallel places (get >>= next) := by
  intro b map hb hroom
  change ((next b).result? b = none ∧ (next (b.plain map)).result? (b.plain map) = none) ∨
    ∃ value b' map', (next b).result? b = some (value, b') ∧
      (next (b.plain map)).result? (b.plain map) = some (value, b'.plain map') ∧ _
  rw [hnext]
  exact h b b map hb hroom

theorem Numbered.clip {b : ChunkBuilder} {map : SourceMap} (h : b.Numbered map) :
    b.seen map.clip b.options b.map b.generatedLine = b :=
  h.given map.clip fun _ => SourceMap.clip_of_le

theorem Numbered.seen_congr {b : ChunkBuilder} {map : SourceMap} (h : b.Numbered map)
    {first second : UInt32 → UInt32}
    (hsame : ∀ line, line.toNat ≤ map.size → first line = second line) (options : Options)
    (other : Option SourceMap) (line : UInt32) :
    b.seen first options other line = b.seen second options other line := by
  have hcomp : first ∘ map.clip = second ∘ map.clip := by
    funext line
    exact hsame _ (map.toNat_clip_le line)
  rw [← h.clip]
  simp [seen, FunctionBuilder.relined_relined, hcomp]

def mappingAt (span : Span) (b : ChunkBuilder) : Mapping :=
  ⟨b.generatedLine, span.line, span.column, b.options.sourcePath⟩

theorem locate_of_map {b : ChunkBuilder} {map : SourceMap} (h : b.map = some map) (span : Span) :
    locate span b = { b with
      map := some (map.add (b.mappingAt span))
      generatedLine := b.generatedLine + 1
      current := b.current.setLine b.generatedLine } := by
  unfold locate
  rw [h]
  rfl

theorem Numbered.toNat_generatedLine {b : ChunkBuilder} {map : SourceMap} (h : b.Numbered map)
    (hroom : map.size + 1 < 2 ^ 32) : b.generatedLine.toNat = map.size + 1 := by
  rw [h.generatedLine, UInt32.toNat_ofNat']
  exact Nat.mod_eq_of_lt hroom

theorem locate_numbered {b : ChunkBuilder} {map : SourceMap} (h : b.Numbered map)
    (hroom : map.size + 1 < 2 ^ 32) (span : Span) :
    (locate span b).Numbered (map.add (b.mappingAt span)) := by
  have hnext := h.toNat_generatedLine hroom
  rw [locate_of_map h.map_eq]
  refine ⟨rfl, ?_, ?_, ?_⟩
  · rw [SourceMap.size_add, UInt32.ofNat_add (map.size + 1) 1, ← h.generatedLine]
    rfl
  · intro index mapping hindex
    simp only [SourceMap.add, Array.getElem?_push] at hindex
    split at hindex
    next hlast =>
      have hmapping : b.mappingAt span = mapping := Option.some.inj hindex
      rw [← hmapping, hlast]
      exact ⟨h.generatedLine, rfl⟩
    next => exact h.mappings index mapping hindex
  · intro rename hrename
    rw [SourceMap.size_add] at hrename
    have hgiven := h.given rename fun line hline => hrename line (by omega)
    have hcurrent : b.current.relined rename = b.current := congrArg ChunkBuilder.current hgiven
    have henclosing : b.enclosing.map (FunctionBuilder.relined rename) = b.enclosing :=
      congrArg ChunkBuilder.enclosing hgiven
    have hlast : (b.current.setLine b.generatedLine).relined rename =
        (b.current.relined rename).setLine (rename b.generatedLine) := rfl
    simp only [seen, henclosing, hlast, hcurrent, hrename b.generatedLine (by omega)]

theorem locate_plain {b : ChunkBuilder} {map : SourceMap} (h : b.Numbered map)
    (hroom : map.size + 1 < 2 ^ 32) (span : Span) :
    locate span (b.plain map) = (locate span b).plain (map.add (b.mappingAt span)) := by
  have hold : b.seen (map.add (b.mappingAt span)).lineOf b.options none 1 = b.plain map :=
    h.seen_congr (fun _ => SourceMap.lineOf_add_of_le) b.options none 1
  have hlast : (map.add (b.mappingAt span)).lineOf b.generatedLine = span.line :=
    SourceMap.lineOf_add_last (h.toNat_generatedLine hroom)
  calc locate span (b.plain map)
    _ = { b.plain map with current := (b.plain map).current.setLine span.line } := rfl
    _ = (locate span b).plain (map.add (b.mappingAt span)) := by
      rw [← hold, ← hlast, locate_of_map h.map_eq]
      rfl

theorem locate_parallel (span : Span) : Parallel 1 (modify (locate span)) := by
  intro b map hb hroom
  have hoptions : (locate span b).options = b.options := by rw [locate_of_map hb.map_eq]
  refine .inr ⟨(), locate span b, map.add (b.mappingAt span), rfl, ?_,
    locate_numbered hb (by omega) span, hoptions, ?_⟩
  · exact congrArg (fun after => some ((), after)) (locate_plain hb (by omega) span)
  · exact Nat.le_of_eq (SourceMap.size_add _ _)

end ChunkBuilder

namespace Lower

variable {places more : Nat}

theorem locateKnown_parallel (span : Span) : Parallel 1 (locateKnown span) := by
  unfold locateKnown
  split
  · exact locate_parallel span
  · exact (steady_pure ()).parallel.mono (by omega)

theorem shortPair_parallel {left right : Lower Operand} (hleft : Parallel places left)
    (hright : Parallel more right) : Parallel (places + more) (shortPair left right) :=
  hleft.bind fun _ => (shortened_steady _).bind_parallel fun _ => hright.bind_steady fun _ =>
    (shortened_steady _).bind fun _ => (free_steady _).bind fun _ => (free_steady _).bind fun _ =>
      (shortOf_steady _).bind fun _ => (shortOf_steady _).bind fun _ => steady_pure _

theorem store_parallel {value : Option UInt8 → Lower Operand} (name : String) (isLogical : Bool)
    (hvalue : ∀ dest, Parallel places (value dest)) :
    Parallel places (store name isLogical value) := by
  refine (resolve_steady name).bind_parallel fun found => ?_
  cases found with
  | register target =>
    cases isLogical with
    | true =>
      exact (hvalue none).bind_steady fun _ => (inRegister_steady _).bind fun stored =>
        (load_steady _ target).bind fun _ => (free_steady _).bind fun _ => steady_pure _
    | false => exact (hvalue (some target)).bind_steady fun _ => steady_pure _
  | upvalue index =>
    exact (hvalue none).bind_steady fun _ => (inRegister_steady _).bind fun _ =>
      (registerOf_steady _).bind fun _ => emit_steady.bind fun _ => steady_pure _
  | global name =>
    exact (hvalue none).bind_steady fun _ => (shortened_steady _).bind fun stored =>
      (storeGlobal_steady name stored).bind fun _ => steady_pure _

theorem freeAll_steady (registers : List UInt8) :
    Steady (registers.forM fun register => free (.register register)) :=
  fun rename options map line => commutes_forM fun register _ =>
    free_steady (.register register) rename options map line

theorem call_parallel {callee : Lower Operand} {args : Lower (List UInt8)}
    (hcallee : Parallel places callee) (hargs : Parallel more args) (base : UInt8) (results : Nat) :
    Parallel (places + more) (call base callee args results) :=
  hcallee.bind fun _ => hargs.bind_steady fun _ => emit_steady.bind fun _ => freeAll_steady _

theorem jumpUnless_parallel {condition : Lower Operand} (h : Parallel places condition) :
    Parallel places (jumpUnless condition) :=
  h.bind_steady fun _ => (inRegister_steady _).bind fun _ => (registerOf_steady _).bind fun _ =>
    emit_steady.bind fun _ => jump_steady.bind fun _ => (free_steady _).bind fun _ => steady_pure _

theorem inScope_parallel {body : Lower Unit} (name : String) (h : Parallel places body) :
    Parallel places (inScope name body) := by
  have hopen : Steady (onCurrent (modify (FunctionBuilder.openScope name))) :=
    steady_onCurrent fun _ => commutes_modify fun _ => rfl
  exact hopen.bind_parallel fun _ => h.bind_steady fun _ =>
    steady_onCurrent fun _ => FunctionBuilder.closeScope_commutes

theorem deadBranch_parallel {body otherwise : Lower Unit} (hbody : Parallel places body)
    (hotherwise : Parallel more otherwise) :
    Parallel (places + more) (deadBranch body otherwise) := by
  have hopen : Steady (onCurrent (modify FunctionBuilder.openSection)) := by
    refine steady_onCurrent fun rename => commutes_modify fun f => ?_
    simp [FunctionBuilder.openSection, Code.openSection, FunctionBuilder.relined, Code.relined,
      Code.size]
  have hdiscard : Steady (onCurrent FunctionBuilder.discardSection) :=
    steady_onCurrent fun _ => FunctionBuilder.discardSection_commutes
  exact hopen.bind_parallel fun _ => (inScope_parallel "if" hbody).bind fun _ =>
    hdiscard.bind_parallel fun _ => hotherwise

theorem whileLoop_parallel {condition : Lower Operand} {body : Lower Unit}
    (hcondition : Parallel places condition) (hbody : Parallel more body) :
    Parallel (places + more) (whileLoop condition body) := by
  refine parallel_get_bind (fun map b => ?_) fun b => ?_
  · have hpc : (b.plain map).current.pc = b.current.pc := FunctionBuilder.pc_relined b.current
    simp only [hpc]
  have hopen : Steady (onCurrent (modify (FunctionBuilder.openLoop (some b.current.pc)))) :=
    steady_onCurrent fun _ => commutes_modify fun _ => rfl
  have hback : Steady (onCurrent (FunctionBuilder.jumpTo b.current.pc)) :=
    steady_onCurrent fun _ => FunctionBuilder.jumpTo_commutes b.current.pc
  exact hopen.bind_parallel fun _ => (jumpUnless_parallel hcondition).bind fun done =>
    (inScope_parallel "while" hbody).bind_steady fun _ => hback.bind fun _ =>
      (aimHere_steady done).bind fun _ =>
        steady_onCurrent fun _ => FunctionBuilder.closeLoop_commutes

theorem functionInto_parallel {body : Lower Unit} (hbody : Parallel places body)
    (params : List String) (name : String) (line lastLine : UInt32) (target : UInt8) :
    Parallel places (functionInto params body name line lastLine target) :=
  (openFunction_steady name line).bind_parallel fun _ =>
    (parameters_steady params).bind_parallel fun _ => hbody.bind_steady fun _ =>
      emit_steady.bind fun _ => (closeFunction_steady lastLine).bind fun _ => emit_steady

theorem declareLocal_parallel {value : UInt8 → Lower Unit} (name : String)
    (h : ∀ register, Parallel places (value register)) :
    Parallel places (declareLocal name value) := by
  refine allocate_steady.bind_parallel fun register => (h register).bind_steady fun _ =>
    (free_steady _).bind fun _ => (bindLocal_steady name).bind fun bound => ?_
  split
  · exact steady_throw _
  · exact steady_pure ()

theorem inPlace_parallel {compute : UInt8 → Lower Unit}
    (h : ∀ target, Parallel places (compute target)) (dest : Option UInt8) :
    Parallel places (inPlace compute dest) :=
  (place_steady dest).bind_parallel fun target => (h target).bind_steady fun _ => steady_pure _

theorem unaryInto_parallel {value : Option UInt8 → Lower Operand} (op : UnaryOp)
    (h : Parallel places (value none)) (target : UInt8) :
    Parallel places (unaryInto op value target) :=
  h.bind_steady fun _ => (inRegister_steady _).bind fun _ => (registerOf_steady _).bind fun _ =>
    (free_steady _).bind fun _ => emit_steady

theorem binaryInto_parallel {left right : Option UInt8 → Lower Operand} (op : BinaryOp)
    (hleft : ∀ dest, Parallel places (left dest)) (hright : ∀ dest, Parallel more (right dest))
    (target : UInt8) : Parallel (places + more) (binaryInto op left right target) := by
  unfold binaryInto
  split
  · exact allocate_steady.bind_parallel fun first => (hleft (some first)).bind fun _ =>
      allocate_steady.bind_parallel fun second => (hright (some second)).bind_steady fun _ =>
        (free_steady _).bind fun _ => (free_steady _).bind fun _ => emit_steady
  · exact (shortPair_parallel (hleft none) (hright none)).bind_steady fun _ => emit_steady
  · refine (shortPair_parallel (hleft none) (hright none)).bind_steady fun fields => ?_
    dsimp only
    split
    · exact compare_steady
    · exact compare_steady

theorem logicalInto_parallel {left right : Option UInt8 → Lower Operand} (op : LogicalOp)
    (hleft : ∀ dest, Parallel places (left dest)) (hright : ∀ dest, Parallel more (right dest))
    (target : UInt8) : Parallel (places + more) (logicalInto op left right target) :=
  (hleft (some target)).bind fun _ => emit_steady.bind_parallel fun _ =>
    jump_steady.bind_parallel fun done => (hright (some target)).bind_steady fun _ =>
      aimHere_steady done

theorem callInto_parallel {callee : Option UInt8 → Lower Operand} {args : Lower (List UInt8)}
    (hcallee : ∀ dest, Parallel places (callee dest)) (hargs : Parallel more args)
    (target : UInt8) : Parallel (places + more) (callInto callee args target) := by
  refine (isFreshTop_steady target).bind_parallel fun fresh => ?_
  have hcall := fun base => call_parallel (hcallee (some base)) hargs base 1
  split
  · exact hcall target
  · exact allocate_steady.bind_parallel fun base => (hcall base).bind_steady fun _ =>
      emit_steady.bind fun _ => free_steady _

theorem oneLineEach : StmtRules (fun e value => ∀ dest, Parallel e.nodes (value dest))
    (fun args => Parallel (Expr.listNodes args))
    (fun f closure => ∀ name line target, Parallel f.nodes (closure name line target))
    (fun _ form => Parallel form.nodes) (fun stmt => Parallel stmt.nodes)
    (fun body => Parallel (Stmt.listNodes body)) where
  nil dest := (settle_steady _ dest).parallel.mono (by omega)
  boolean _ dest := (settle_steady _ dest).parallel.mono (by omega)
  integer _ dest :=
    ((constant_steady _).bind fun _ => settle_steady _ dest).parallel.mono (by omega)
  number _ dest :=
    ((constant_steady _).bind fun _ => settle_steady _ dest).parallel.mono (by omega)
  string _ dest :=
    ((constant_steady _).bind fun _ => settle_steady _ dest).parallel.mono (by omega)
  name name dest :=
    ((resolve_steady name).bind fun _ => settle_steady _ dest).parallel.mono (by omega)
  unary op hoperand dest := by
    rw [Expr.nodes, ExprForm.nodes]
    exact (inPlace_parallel (unaryInto_parallel op (hoperand none)) dest).mono (by omega)
  binary op hleft hright dest := by
    rw [Expr.nodes, ExprForm.nodes]
    exact (inPlace_parallel (binaryInto_parallel op hleft hright) dest).mono (by omega)
  logical op hleft hright dest := by
    rw [Expr.nodes, ExprForm.nodes]
    exact (inPlace_parallel (logicalInto_parallel op hleft hright) dest).mono (by omega)
  assign name hstored dest := by
    rw [Expr.nodes, ExprForm.nodes]
    refine (inPlace_parallel (fun target => ?_) dest).mono (Nat.le_add_right _ 1)
    exact (store_parallel name _ hstored).bind_steady fun stored =>
      (load_steady stored target).bind fun _ => free_steady stored
  call hcallee hargs dest := by
    rw [Expr.nodes, ExprForm.nodes]
    exact (inPlace_parallel (callInto_parallel hcallee hargs) dest).mono (by omega)
  function hclosure dest := by
    rw [Expr.nodes, ExprForm.nodes]
    exact (inPlace_parallel (hclosure _ _) dest).mono (by omega)
  tuple _ _ := (steady_throw _).parallel.mono (by omega)
  object _ _ := (steady_throw _).parallel.mono (by omega)
  noArgs := (steady_pure []).parallel.mono (by omega)
  moreArgs hactual hrest := by
    rw [Expr.listNodes]
    exact allocate_steady.bind_parallel fun register => (hactual (some register)).bind fun _ =>
      hrest.bind_steady fun _ => steady_pure _
  closure params endLine hbody name line target := by
    rw [FunctionLiteral.nodes]
    exact functionInto_parallel hbody params name line _ target
  declareNil name := (declareLocal_parallel name fun _ => emit_steady.parallel).mono (by omega)
  declare name hinit := by
    rw [StmtForm.nodes]
    exact declareLocal_parallel name fun register =>
      (hinit (some register)).bind_steady fun _ => steady_pure _
  callStatement hcallee hargs := by
    rw [StmtForm.nodes, Expr.nodes, ExprForm.nodes]
    refine Parallel.mono ?_ (Nat.le_add_right _ 1)
    exact allocate_steady.bind_parallel fun base =>
      (call_parallel (hcallee (some base)) hargs base 0).bind_steady fun _ => free_steady _
  assignStatement name hstored := by
    rw [StmtForm.nodes, Expr.nodes, ExprForm.nodes]
    refine Parallel.mono ?_ (Nat.le_add_right _ 1)
    exact (store_parallel name _ hstored).bind_steady fun _ => free_steady _
  discard _ _ hvalue := by
    rw [StmtForm.nodes]
    exact (hvalue none).bind_steady fun _ => free_steady _
  define name hclosure := by
    rw [StmtForm.nodes]
    exact (bindLocal_steady name).bind_parallel (hclosure _ _)
  returnNothing := emit_steady.parallel.mono (by omega)
  returnValue hvalue := by
    rw [StmtForm.nodes]
    exact (hvalue none).bind_steady fun _ => (inRegister_steady _).bind fun _ =>
      (registerOf_steady _).bind fun _ => emit_steady.bind fun _ => free_steady _
  deadBranch _ hbody := by
    rw [StmtForm.nodes]
    exact (deadBranch_parallel hbody (steady_pure ()).parallel).mono (by omega)
  deadBranchElse _ hbody hotherwise := by
    rw [StmtForm.nodes]
    exact (deadBranch_parallel hbody (inScope_parallel "else" hotherwise)).mono (by omega)
  branch _ hcondition hbody := by
    rw [StmtForm.nodes]
    exact (jumpUnless_parallel (hcondition none)).bind fun done =>
      (inScope_parallel "if" hbody).bind_steady fun _ => aimHere_steady done
  branchElse _ hcondition hbody hotherwise := by
    rw [StmtForm.nodes]
    refine Parallel.mono ((jumpUnless_parallel (hcondition none)).bind fun toElse =>
      (inScope_parallel "if" hbody).bind fun _ => jump_steady.bind_parallel fun done =>
        (aimHere_steady toElse).bind_parallel fun _ =>
          (inScope_parallel "else" hotherwise).bind_steady fun _ => aimHere_steady done) (by omega)
  whileLoop hcondition hbody := by
    rw [StmtForm.nodes]
    exact whileLoop_parallel (hcondition none) hbody
  breakLoop :=
    (steady_onCurrent fun _ => FunctionBuilder.breakLoop_commutes).parallel.mono (by omega)
  continueLoop :=
    (steady_onCurrent fun _ => FunctionBuilder.continueLoop_commutes).parallel.mono (by omega)
  block hbody := by
    rw [StmtForm.nodes]
    exact inScope_parallel "block" hbody
  classDecl _ := (steady_throw _).parallel.mono (by omega)
  tryBlock _ := (steady_throw _).parallel.mono (by omega)
  located hform := by
    rw [Stmt.nodes]
    exact ((locateKnown_parallel _).bind fun _ => hform).mono (by omega)
  empty := (steady_pure ()).parallel.mono (by omega)
  sequence hfirst hrest := by
    rw [Stmt.listNodes]
    exact hfirst.bind fun _ => hrest

end Lower

/-- A generated line and the line that the map has for it; zero stands for itself. -/
def SourceMap.Retraces (map : SourceMap) (generated line : UInt32) : Prop :=
  (generated = 0 ∧ line = 0) ∨
    (1 ≤ generated.toNat ∧ generated.toNat ≤ map.size ∧
      ∃ mapping, map.mappings[generated.toNat - 1]? = some mapping ∧ mapping.line = line)

/-- Two trees that are equal but for their lines, where the map leads from the lines of the
first to those of the second. -/
inductive Prototype.Retraces (map : SourceMap) : Prototype → Prototype → Prop
  | intro {compiled plain : Prototype}
    (same : { compiled with lines := [], children := [] } =
      { plain with lines := [], children := [] })
    (lines : List.Forall₂ map.Retraces compiled.lines plain.lines)
    (children : List.Forall₂ (Retraces map) compiled.children plain.children) :
    Retraces map compiled plain

theorem SourceMap.retraces_lineOf {map : SourceMap} {generated : UInt32}
    (h : generated.toNat ≤ map.size) : map.Retraces generated (map.lineOf generated) := by
  cases hindex : generated.toNat with
  | zero =>
    have hzero : generated = 0 := UInt32.toNat_inj.mp hindex
    subst hzero
    exact .inl ⟨rfl, rfl⟩
  | succ index =>
    have hlt : index < map.mappings.size := by
      unfold size at h
      omega
    refine .inr ⟨by omega, h, map.mappings[index], ?_, ?_⟩
    · rw [hindex]
      exact Array.getElem?_eq_getElem hlt
    · simp [lineOf, hindex, hlt]

mutual

theorem Prototype.retraces_relined (map : SourceMap) :
    (p : Prototype) → p.relined map.clip = p → p.Retraces map (p.relined map.lineOf)
  | { lines, children, .. }, h => by
    simp only [relined, mk.injEq, true_and] at h
    obtain ⟨hlines, hchildren, -⟩ := h
    refine .intro rfl ?_ (allRetraces_relined map children hchildren)
    rw [relined, List.forall₂_map_right_iff, List.forall₂_same]
    intro line hline
    have hclip : map.clip line = line :=
      List.map_inj_left.mp (hlines.trans (List.map_id lines).symm) line hline
    rw [← hclip]
    exact SourceMap.retraces_lineOf (map.toNat_clip_le line)

theorem Prototype.allRetraces_relined (map : SourceMap) :
    (children : List Prototype) → allRelined map.clip children = children →
      List.Forall₂ (Retraces map) children (allRelined map.lineOf children)
  | [], _ => by
    rw [allRelined]
    exact .nil
  | child :: children, h => by
    rw [allRelined] at h ⊢
    injection h with hchild hchildren
    exact .cons (retraces_relined map child hchild) (allRetraces_relined map children hchildren)

end

namespace Program

variable {program : Program} {options : Options}

theorem numbered_start (options : Options) :
    (ChunkBuilder.start options (some {})).Numbered {} := by
  refine ⟨rfl, rfl, ?_, ?_⟩
  · simp
  · intro rename hrename
    have hzero : rename 0 = 0 := hrename 0 (Nat.zero_le _)
    simp [seen, start, FunctionBuilder.relined, Code.relined, FunctionBuilder.root,
      FunctionBuilder.start, hzero]

theorem plain_start (options : Options) :
    (ChunkBuilder.start options (some {})).plain {} = .start options none := by
  simp [plain, seen, start, FunctionBuilder.relined, Code.relined, FunctionBuilder.root,
    FunctionBuilder.start, SourceMap.lineOf]

theorem lowering_parallel (program : Program) : Parallel program.nodes program.lowering :=
  (oneLineEach.holds_statements program.body).bind_steady fun _ => emit_steady

theorem finish_toOption {b : ChunkBuilder} (henclosing : b.enclosing = []) (lastLine : UInt32) :
    (b.finish lastLine).toOption = (b.current.finish lastLine).toOption.map fun main =>
      { main with source := some b.options.chunkName } := by
  rw [ChunkBuilder.finish, henclosing]
  dsimp only
  cases b.current.finish lastLine <;> rfl

theorem finish_seen (b : ChunkBuilder) (rename : UInt32 → UInt32) (map : Option SourceMap)
    (line lastLine : UInt32) :
    ((b.seen rename b.options map line).finish lastLine).toOption =
      (b.finish lastLine).toOption.map (Prototype.relined rename) := by
  cases henclosing : b.enclosing with
  | nil =>
    have hseen : (b.seen rename b.options map line).enclosing = [] := by simp [seen, henclosing]
    have hcurrent : (b.seen rename b.options map line).current = b.current.relined rename := rfl
    have hsource : ∀ main : Prototype,
        { main.relined rename with source := some b.options.chunkName } =
          ({ main with source := some b.options.chunkName } : Prototype).relined rename := by
      intro main
      rw [Prototype.relined_eq, Prototype.relined_eq]
    rw [finish_toOption hseen, finish_toOption henclosing, hcurrent,
      FunctionBuilder.finish_relined, Option.map_map, Option.map_map]
    exact Option.map_congr fun main _ => hsource main
  | cons outer rest => simp [ChunkBuilder.finish, seen, henclosing, Except.toOption]

theorem build_toOption (program : Program) (options : Options) (map : Option SourceMap) :
    (program.build options map).toOption =
      (program.lowering.result? (.start options map)).bind fun (_, b) =>
        (b.finish program.endLine).toOption.map fun main => (main, b.map) := by
  rw [build_eq]
  unfold result?
  cases program.lowering (.start options map) with
  | error error b => rfl
  | ok _ b =>
    dsimp only [Option.bind_some]
    cases b.finish program.endLine <;> rfl

theorem build_parallel (hsize : program.nodes < 2 ^ 24) (options : Options) :
    ((program.build options (some {})).toOption = none ∧
      (program.build options none).toOption = none) ∨
    ∃ main map, (program.build options (some {})).toOption = some (main, some map) ∧
      (program.build options none).toOption = some (main.relined map.lineOf, none) ∧
      main.relined map.clip = main ∧ map.size < 2 ^ 24 ∧
      ∀ (index : Nat) (mapping : Mapping), map.mappings[index]? = some mapping →
        mapping.generatedLine = .ofNat (index + 1) ∧ mapping.path = options.sourcePath := by
  have hstart := numbered_start options
  have hempty : ({} : SourceMap).size = 0 := rfl
  rw [build_toOption, build_toOption, ← plain_start]
  rcases lowering_parallel program _ {} hstart (by omega) with
    ⟨hrun, hplain⟩ | ⟨_, b, map, hrun, hplain, hb, hoptions, hle⟩
  · rw [hrun, hplain]
    exact .inl ⟨rfl, rfl⟩
  · rw [hrun, hplain]
    have hfinish : ((b.plain map).finish program.endLine).toOption = _ :=
      finish_seen b map.lineOf none 1 program.endLine
    have hclip := finish_seen b map.clip b.map b.generatedLine program.endLine
    rw [hb.clip] at hclip
    simp only [Option.bind_some, hfinish]
    cases hmain : (b.finish program.endLine).toOption with
    | none => exact .inl ⟨rfl, rfl⟩
    | some main =>
      rw [hmain, Option.map_some] at hclip
      refine .inr ⟨main, map, ?_, rfl, (Option.some.inj hclip).symm, by omega, ?_⟩
      · rw [Option.map_some, hb.map_eq]
      · rw [← show b.options = options from hoptions]
        exact hb.mappings

/-- A map leads back to the lines of the source. Compiling with one succeeds exactly if
lowering without one does, the trees are equal but for their lines, the mappings have the
generated lines in order, and each generated line of an instruction is mapped to its line
in the other tree. -/
theorem compile_retraces (program : Program) (options : Options) (hsize : program.nodes < 2 ^ 24) :
    ((∃ chunk, program.compile options = .ok chunk) ↔ ∃ main, program.lower options = .ok main) ∧
    ∀ chunk main, program.compile options = .ok chunk → program.lower options = .ok main →
      chunk.main.Retraces chunk.map main ∧
      ∀ (index : Nat) (mapping : Mapping), chunk.map.mappings[index]? = some mapping →
        mapping.generatedLine.toNat = index + 1 ∧ mapping.path = options.sourcePath := by
  rcases build_parallel hsize options with
    ⟨hcompile, hlower⟩ | ⟨main, map, hcompile, hlower, hclip, hfew, hmappings⟩
  · obtain ⟨error, hcompile⟩ := toOption_eq_none.mp hcompile
    obtain ⟨error', hlower⟩ := toOption_eq_none.mp hlower
    simp [compile, lower, hcompile, hlower, bind, Except.bind]
  · have hchunk : program.compile options = .ok ⟨main, main.chunk options.strip, map⟩ := by
      rw [compile, toOption_eq_some.mp hcompile]
      rfl
    have hmain : program.lower options = .ok (main.relined map.lineOf) := by
      rw [lower, toOption_eq_some.mp hlower]
      rfl
    refine ⟨⟨fun _ => ⟨_, hmain⟩, fun _ => ⟨_, hchunk⟩⟩, ?_⟩
    intro chunk plain hchunk' hplain
    rw [hchunk] at hchunk'
    rw [hmain] at hplain
    cases hchunk'
    cases hplain
    refine ⟨Prototype.retraces_relined map main hclip, ?_⟩
    intro index mapping hindex
    obtain ⟨hline, hpath⟩ := hmappings index mapping hindex
    have hlt : index < map.size := (Array.getElem?_eq_some_iff.mp hindex).1
    refine ⟨?_, hpath⟩
    rw [hline, UInt32.toNat_ofNat']
    omega

/-- A dead branch takes a generated line that no instruction keeps. -/
def deadBranchBetween : Program :=
  .of [⟨.declare "x" none, ⟨3, 1⟩⟩,
    ⟨.branch (.of (.boolean false)) [⟨.ret none, ⟨4, 9⟩⟩] none, ⟨4, 1⟩⟩,
    ⟨.function "f" ⟨[], [.of (.ret (some (.of (.name "x"))))], 0⟩, ⟨7, 1⟩⟩]

theorem compile_retraces_deadBranch :
    deadBranchBetween.nodes < 2 ^ 24 ∧ ∃ chunk main,
      deadBranchBetween.compile {} = .ok chunk ∧ deadBranchBetween.lower {} = .ok main ∧
      chunk.main.lines = [1, 4, 4] ∧ main.lines = [3, 7, 7] ∧
      chunk.main.Retraces chunk.map main := by
  have hchunk : (match deadBranchBetween.compile {} with
      | .ok chunk => chunk.main.lines == [1, 4, 4]
      | .error _ => false) = true := by decide +kernel
  have hmain : (match deadBranchBetween.lower {} with
      | .ok main => main.lines == [3, 7, 7]
      | .error _ => false) = true := by decide +kernel
  refine ⟨by decide, ?_⟩
  split at hchunk
  · next chunk hcompile =>
    split at hmain
    · next main hlower =>
      exact ⟨chunk, main, hcompile, hlower, by simpa using hchunk, by simpa using hmain,
        ((compile_retraces deadBranchBetween {} (by decide)).2 chunk main hcompile hlower).1⟩
    · simp at hmain
  · simp at hchunk

end Program

end RegisterCode
