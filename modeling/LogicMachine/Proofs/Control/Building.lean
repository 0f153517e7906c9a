import LogicMachine.Proofs.Code.Composing
import LogicMachine.Proofs.Control.Desk
import LogicMachine.Proofs.Control.Levels

/-!
# Building terms on the heap

The pieces of code that build terms write to the first free heap cells only and
claim them afterwards.  What they put in cells and slots is plain.
-/

namespace LogicMachine

variable [Atoms]

namespace Word

omit [Atoms] in
/-- The next address after that of a cell. -/
theorem next_heap {index : Int32} (nonnegative : 0 ≤ index) :
    (⟨(Address.heap index).pack.bits + 1⟩ : Word) =
      (Address.heap (index + 1)).pack := by
  have sum := @Region.pack_add .heap index 1 nonnegative (by decide)
  rw [UInt64.add_comm]
  exact sum

theorem plain_next {index : Int32} (nonnegative : 0 ≤ index) :
    (⟨(Address.heap index).pack.bits + 1⟩ : Word).Plain := by
  have low := Int32.toNat_toUInt32_of_le nonnegative
  have start := Int32.cast_toNatClampNeg index nonnegative
  have limit := Int32.toInt_lt index
  have here : (Address.heap index).pack.reach =
      2 * 2 ^ 32 + index.toUInt32.toNat := by
    rw [Address.pack_eq_tagged, Cell.reach_tagged]
    rfl
  have near := reach_add_le (Address.heap index).pack 1
  refine plain_of_tag (by rw [next_heap nonnegative, Address.tag_pack]; decide) ?_
  rw [UInt64.add_comm]
  have one : (1 : UInt64).toNat = 1 := rfl
  omega

theorem plain_withTag {word : Word} (plain : word.Plain) {tag : Tag}
    (other : tag ∉ [.constant, .functor]) : (word.withTag tag).Plain := by
  refine plain_of_tag (by rwa [tag_withTag]) ?_
  rw [reach_withTag]
  exact plain.near

end Word

namespace Store

variable {memory : Store}

theorem Tidy.heapTop_nonneg (tidy : memory.Tidy) : 0 ≤ memory.heapTop :=
  (tidy.room .heap).1

omit [Atoms] in
/-- The cells from the top of the heap on are not in use. -/
theorem open_of_top {index : Int32} (above : memory.heapTop ≤ index) :
    memory.Open memory (.heap index) := by
  rintro other same below
  cases same
  exact (Int32.lt_irrefl (Int32.lt_of_lt_of_le below above)).elim

omit [Atoms] in
/-- Counting up from a cell to another one. -/
theorem le_succ_of_load {index : Int32} (nonnegative : 0 ≤ index) {word : Word}
    (present : memory.load (.heap (index + 1)) = .ok word) :
    index ≤ index + 1 := by
  have next := @nonneg_of_load memory .heap _ _ present
  have limit := Int32.toInt_lt index
  rw [Int32.le_iff_toInt_le] at nonnegative next ⊢
  have zero : (0 : Int32).toInt = 0 := rfl
  have one : (1 : Int32).toInt = 1 := rfl
  have sum : (index + 1).toInt = (index.toInt + 1).bmod (2 ^ 32) := by
    rw [Int32.toInt_add, one]
  have folded := Int.bmod_def (index.toInt + 1) (2 ^ 32)
  split at folded <;> omega

/-- The cells up to one that can be written may be claimed. -/
theorem Tidy.claims (tidy : memory.Tidy) {index : Int32} {word : Word}
    (present : memory.load (.heap index) = .ok word) :
    index ≤ index + 1 ∧ (index + 1).toNatClampNeg ≤ memory.heap.size := by
  have nonnegative := @nonneg_of_load memory .heap index word present
  have inside : index.toNatClampNeg < memory.heap.size := by
    simp only [load] at present
    cases found : wordAt? memory.heap index with
    | none => rw [found] at present; cases present
    | some other =>
        exact (Array.getElem?_eq_some_iff.mp (wordAt?_eq_some.mp found).2).1
  have size := tidy.addressable.heap
  have cast := Int32.cast_toNatClampNeg index nonnegative
  have sum : (index + 1).toInt = index.toInt + 1 :=
    @toInt_add_ofNat index 1 nonnegative (by omega)
  refine ⟨?_, ?_⟩
  · rw [Int32.le_iff_toInt_le, sum]
    omega
  · rw [Int32.toNatClampNeg, sum]
    omega

end Store

namespace Activity

variable {activity : Activity} {wanted : Activity → Prop}

theorem then_top
    (holds : wanted (activity.push (Address.heap activity.memory.heapTop).pack)) :
    activity.Then wanted Item.top :=
  holds

theorem then_constant {functor : FunctorId}
    (holds : wanted (activity.push
      ((⟨functor.index.toUInt64⟩ : Word).withTag .constant))) :
    activity.ThenAll wanted (Item.constant functor) := by
  show (activity.push ⟨functor.index.toUInt64⟩).Then _ (.plain .tagConstant)
  exact then_tagConstant rfl holds

/-- Writing the first free cell. -/
theorem then_storeTop {value : Word} {rest : List Word}
    (top : activity.operands =
      value :: (Address.heap activity.memory.heapTop).pack :: rest)
    (plain : value.Plain)
    (holds : ∀ old,
      activity.memory.load (.heap activity.memory.heapTop) = .ok old →
      wanted (write { activity with operands := rest }
        (.heap activity.memory.heapTop) value)) :
    activity.Then wanted (.plain .store) := by
  refine then_store top ?_ plain ?_ ?_
  · rw [Address.address_pack]
    trivial
  · rw [Address.address_pack]
    exact Store.open_of_top (Int32.le_refl _)
  · rw [Address.address_pack]
    exact holds

theorem then_claimCell (tidy : activity.memory.Tidy) {word : Word}
    (present : activity.memory.load (.heap activity.memory.heapTop) = .ok word)
    (holds : wanted (activity.raise (activity.memory.heapTop + 1))) :
    activity.ThenAll wanted Item.claimCell := by
  obtain ⟨higher, fits⟩ := tidy.claims present
  refine then_top (then_increment rfl (then_storeHeapTop rfl ?_ higher fits ?_))
  · rw [Word.next_heap tidy.heapTop_nonneg, Address.address_pack]
  · exact holds

/-- The header of a structure goes to the second free cell. -/
theorem then_claimHeader (tidy : activity.memory.Tidy) {functor : FunctorId}
    (holds : ∀ old word,
      activity.memory.load (.heap (activity.memory.heapTop + 1)) = .ok old →
      activity.memory.heapTop ≤ activity.memory.heapTop + 1 →
      activity.memory.heapTop ≤ activity.memory.heapTop + 2 →
      wanted (raise
        (activity.write (.heap (activity.memory.heapTop + 1)) word)
        (activity.memory.heapTop + 2))) :
    activity.ThenAll wanted (Item.claimHeader functor) := by
  have nonnegative := tidy.heapTop_nonneg
  refine then_top (then_increment rfl ?_)
  rw [Word.next_heap nonnegative]
  refine then_loadConstant (then_tagFunctor rfl ?_)
  have plain : ((⟨functor.index.toUInt64⟩ : Word).withTag .functor).Plain := by
    rw [Word.withTag_number]
    exact Word.plain_functor functor
  have address : (Address.heap (activity.memory.heapTop + 1)).pack.address =
      .heap (activity.memory.heapTop + 1) :=
    Address.address_pack _
  refine then_store rfl ?_ plain ?_ ?_
  · rw [address]
    trivial
  · rw [address]
    intro index same below word present
    cases same
    exact (Int32.lt_irrefl (Int32.lt_of_lt_of_le below
      (Store.le_succ_of_load nonnegative present))).elim
  · rw [address]
    intro old present
    have limit := Store.le_succ_of_load nonnegative present
    obtain ⟨higher, fits⟩ := tidy.claims present
    have same : activity.memory.heapTop + 1 + 1 =
        activity.memory.heapTop + 2 := by
      rw [Int32.add_assoc]
      rfl
    rw [same] at higher fits
    have upper := Int32.le_trans limit higher
    have isHeap : (⟨(2 : UInt32).toUInt64 +
          (Address.heap activity.memory.heapTop).pack.bits⟩ : Word).address =
        .heap (activity.memory.heapTop + 2) := by
      have sum := @Region.pack_add .heap _ 2 nonnegative (by decide)
      exact (congrArg Word.address sum).trans (Address.address_pack _)
    refine then_top (then_loadConstant (then_add rfl ?_))
    refine then_storeHeapTop rfl isHeap upper ?_ (holds old _ present limit upper)
    show _ ≤ (activity.memory.put (.heap (activity.memory.heapTop + 1))
      _).heap.size
    rw [Store.put_heap_size]
    exact fits

end Activity

/-- The word of a built term, given the words in the slots. -/
def Built.wordIn (locals : List Word) : Built → Word
  | .slot place => locals[place.index]?.getD .zero
  | .constant functor => .constant functor

namespace Desk

variable {desk : Desk} {setting : Setting} {place : Label → Nat}

/-- The code builds something and keeps what building terms cannot break. -/
def Builds (desk : Desk) (setting : Setting) (place : Label → Nat)
    (items : List Item) : Prop :=
  ∀ extra, desk.Stable extra →
    setting.Carries place (desk.Clear extra) items (desk.Clear extra)

theorem Builds.append {items more : List Item}
    (first : desk.Builds setting place items)
    (second : desk.Builds setting place more) :
    desk.Builds setting place (items ++ more) :=
  fun extra stable => (first extra stable).append (second extra stable)

theorem Builds.flatMap {α : Type} {text : α → List Item} (values : List α)
    (each : ∀ value ∈ values, desk.Builds setting place (text value)) :
    desk.Builds setting place (values.flatMap text) :=
  fun extra stable => .flatMap values fun value member =>
    each value member extra stable

/-- The condition after the first free cell was written and claimed. -/
theorem Stable.grown {extra : Store → List Word → Prop}
    (stable : desk.Stable extra) {memory : Store} {locals : List Word}
    (holds : extra memory locals) (tidy : memory.Tidy) {old : Word}
    (present : memory.load (.heap memory.heapTop) = .ok old) (word : Word) :
    extra { memory.put (.heap memory.heapTop) word with
      heapTop := memory.heapTop + 1 } locals := by
  refine stable.raise (stable.write word holds (Int32.le_refl _) present) ?_
  rw [Store.put_heapTop]
  exact (tidy.claims present).1

/-- A built term whose slot keeps it. -/
def KeepsBuilt (desk : Desk) : Built → Prop
  | .slot place => desk.Keeps place
  | .constant functor => Atoms.includes functor

theorem KeepsBuilt.fixing {value : Built} (keeps : desk.KeepsBuilt value)
    (slot : Nat) (word : Word) : (desk.fixing slot word).KeepsBuilt value := by
  cases value with
  | slot place =>
      obtain ⟨inside, apart⟩ : desk.Keeps place := keeps
      exact ⟨inside, apart⟩
  | constant functor => exact keeps

variable {activity : Activity} {wanted : Activity → Prop}

theorem Neat.plain_built (neat : desk.Neat activity) {value : Built}
    (keeps : desk.KeepsBuilt value) :
    (value.wordIn activity.locals).Plain := by
  cases value with
  | slot place =>
      obtain ⟨word, found, plain⟩ := neat.exists_local keeps
      rwa [Built.wordIn, found]
  | constant functor => exact Word.plain_constant keeps

/-- Pushing a built term. -/
theorem Neat.then_push (neat : desk.Neat activity) (sound : desk.Sound)
    {value : Built} (keeps : desk.KeepsBuilt value)
    (holds : wanted (activity.push (value.wordIn activity.locals))) :
    activity.ThenAll wanted value.push := by
  cases value with
  | slot place =>
      obtain ⟨word, found, -⟩ := neat.exists_local keeps
      rw [Built.wordIn, found] at holds
      exact Activity.then_loadLocal neat.framed
        (Nat.lt_trans keeps.inside sound.count) found holds
  | constant functor =>
      refine Activity.then_constant ?_
      rw [Word.withTag_number]
      exact holds

/-- Pushing built terms one after another. -/
theorem Neat.then_pushAll (neat : desk.Neat activity) (sound : desk.Sound)
    {values : List Built} (keeps : ∀ value ∈ values, desk.KeepsBuilt value)
    (holds : wanted
      { activity with
        operands := (values.map (Built.wordIn activity.locals)).reverse ++
          activity.operands }) :
    activity.ThenAll wanted (values.flatMap Built.push) := by
  induction values generalizing activity with
  | nil => exact holds
  | cons value rest ih =>
      rw [List.flatMap_cons, Activity.thenAll_append]
      refine neat.then_push sound (keeps value List.mem_cons_self) ?_
      have pushed : desk.Neat (activity.push (value.wordIn activity.locals)) :=
        neat.congr rfl rfl rfl
      refine ih pushed (fun other member =>
        keeps other (List.mem_cons_of_mem _ member)) ?_
      simp only [List.map_cons, List.reverse_cons, List.append_assoc,
        List.singleton_append] at holds
      exact holds

theorem builds_write (sound : desk.Sound) {value : Built}
    (keeps : desk.KeepsBuilt value) : desk.Builds setting place value.write := by
  intro extra stable
  refine .straight fun activity clear _ tidy => ?_
  have topPlain := tidy.heapTop_nonneg
  rw [Built.write, List.cons_append, List.cons_append]
  refine Activity.then_top ?_
  simp only [List.append_assoc]
  rw [Activity.thenAll_append]
  have pushed : desk.Neat
      (activity.push (Address.heap activity.memory.heapTop).pack) :=
    clear.toNeat.congr rfl rfl rfl
  have plain := clear.toNeat.plain_built keeps
  refine pushed.then_push sound keeps ?_
  refine Activity.then_storeTop rfl plain fun old present => ?_
  refine Activity.then_claimCell (tidy.put present fun _ => plain)
    (Store.load_put_self present _) ?_
  exact ⟨clear.toNeat.congr rfl rfl rfl, clear.operands,
    stable.grown clear.extra tidy present _⟩

/-- The first free cell has become an unbound variable. -/
theorem fresh_claimed (tidy : activity.memory.Tidy) {old word : Word}
    (present : activity.memory.load (.heap activity.memory.heapTop) = .ok old)
    (refers : word.cell = .reference (.heap activity.memory.heapTop)) :
    Store.Fresh
      { activity.memory.put (.heap activity.memory.heapTop) word with
        heapTop := activity.memory.heapTop + 1 } word := by
  obtain ⟨higher, -⟩ := tidy.claims present
  have different : activity.memory.heapTop ≠ activity.memory.heapTop + 1 := by
    intro same
    have zero := (Int32.add_eq_left).mp same.symm
    exact absurd zero (by decide)
  exact ⟨activity.memory.heapTop,
    Int32.lt_of_le_of_ne higher different, refers,
    Store.load_put_self present word⟩

/-- A new variable, kept in a slot or not. -/
theorem carries_freshVariable (sound : desk.Sound) {slot : Option Local}
    (frees : ∀ given ∈ slot, desk.Frees given)
    {extra : Store → List Word → Prop} (stable : desk.Stable extra) :
    setting.Carries place (desk.Clear extra) (Item.freshVariable slot)
      (fun later => desk.Clear extra later ∧ ∀ given ∈ slot, ∃ word,
        later.locals[given.index]? = some word ∧ later.memory.Fresh word) := by
  refine .straight fun activity clear _ tidy => ?_
  let cell := Address.heap activity.memory.heapTop
  have plain : (cell.pack.withTag .reference).Plain :=
    Word.plain_withTag (@Word.plain_cell _ .heap _ tidy.heapTop_nonneg)
      (by decide)
  have refers : (cell.pack.withTag .reference).cell = .reference cell := by
    rw [Word.tag_eq_reference_iff.mp (Word.tag_withTag _ _),
      Word.address_withTag, Address.address_pack]
  unfold Item.freshVariable
  rw [Activity.thenAll_append, Activity.thenAll_append]
  refine Activity.then_top ?_
  refine Activity.then_duplicate rfl (Activity.then_tagReference rfl ?_)
  refine Activity.then_storeTop rfl plain fun old present => ?_
  have written := tidy.put present fun _ => plain
  have fresh := fresh_claimed tidy present refers
  have claims (locals : List Word)
      (neat : desk.Neat { activity with locals })
      (holds : extra activity.memory locals)
      (given : ∀ kept ∈ slot, locals[kept.index]? =
        some (cell.pack.withTag .reference)) :
      Activity.ThenAll
        { activity with
          memory := activity.memory.put cell (cell.pack.withTag .reference)
          locals }
        (fun later => desk.Clear extra later ∧ ∀ kept ∈ slot, ∃ word,
          later.locals[kept.index]? = some word ∧ later.memory.Fresh word)
        Item.claimCell := by
    refine Activity.then_claimCell written (Store.load_put_self present _) ?_
    refine ⟨⟨neat.congr rfl rfl rfl, clear.operands,
      stable.grown holds tidy present _⟩, fun kept member => ?_⟩
    exact ⟨_, given kept member, (Store.put_heapTop ..).symm ▸ fresh⟩
  cases slot with
  | none => exact claims activity.locals clear.toNeat clear.extra nofun
  | some slot =>
      have given := frees slot rfl
      have inside : slot.index < activity.locals.length := by
        rw [clear.length]
        exact given.inside
      show Activity.ThenAll _ _
        [Item.top, .plain .load, Item.onLocal .storeLocal slot]
      refine Activity.then_top ?_
      refine Activity.then_load rfl fun word finds => ?_
      have isVariable : word = cell.pack.withTag .reference := by
        rw [Address.address_pack] at finds
        have offStack : cell.OffStack := trivial
        have found := finds.cell offStack
        exact Except.ok.inj
          (found.symm.trans (Store.load_put_self present _))
      subst isVariable
      refine Activity.then_storeLocal clear.framed
        (Nat.lt_trans given.inside sound.count) rfl inside ?_
      refine claims _ (clear.toNeat.setLocal given plain)
        (stable.keep _ clear.extra given.apart) ?_
      rintro kept ⟨⟩
      exact List.getElem?_set_self inside

theorem builds_freshVariable (sound : desk.Sound) {slot : Option Local}
    (frees : ∀ given ∈ slot, desk.Frees given) :
    desk.Builds setting place (Item.freshVariable slot) := by
  intro extra stable turning position holds next
  exact carries_freshVariable sound frees stable turning position holds
    fun later reached => next later reached.1

theorem builds_claimHeader (functor : FunctorId) :
    desk.Builds setting place (Item.claimHeader functor) := by
  intro extra stable
  refine .straight fun activity clear _ tidy => ?_
  refine Activity.then_claimHeader tidy fun old word present first second => ?_
  refine ⟨clear.toNeat.congr rfl rfl rfl, clear.operands, ?_⟩
  refine stable.raise (stable.write word clear.extra first present) ?_
  exact (Store.put_heapTop ..).symm ▸ second

/-- The word of the compound goes to the slot. -/
theorem builds_openItems (sound : desk.Sound) {slot : Local}
    (frees : desk.Frees slot) (functor : Option FunctorId) :
    desk.Builds setting place (Built.openItems slot functor) := by
  have small := Nat.lt_trans frees.inside sound.count
  cases functor with
  | none =>
      intro extra stable
      refine .straight fun activity clear _ tidy => ?_
      have plain := Word.plain_withTag
        (@Word.plain_cell _ .heap _ tidy.heapTop_nonneg)
        (show Tag.list ∉ [.constant, .functor] by decide)
      refine Activity.then_top (Activity.then_tagList rfl ?_)
      refine Activity.then_storeLocal clear.framed small rfl ?_ ?_
      · show slot.index < activity.locals.length
        rw [clear.length]
        exact frees.inside
      · exact ⟨(clear.toNeat.setLocal frees plain).congr rfl rfl rfl,
          clear.operands, stable.keep _ clear.extra frees.apart⟩
  | some functor =>
      refine Builds.append ?_ (builds_claimHeader functor)
      intro extra stable
      refine .straight fun activity clear _ tidy => ?_
      have inside : slot.index < activity.locals.length := by
        rw [clear.length]
        exact frees.inside
      have plain := Word.plain_withTag (Word.plain_next tidy.heapTop_nonneg)
        (show Tag.compound ∉ [.constant, .functor] by decide)
      refine Activity.then_top (Activity.then_increment rfl ?_)
      refine Activity.then_tagCompound rfl ?_
      refine Activity.then_storeLocal clear.framed small rfl inside ?_
      refine Activity.then_top (Activity.then_loadLocal clear.framed small
        (List.getElem?_set_self inside) ?_)
      refine Activity.then_storeTop rfl plain fun old present => ?_
      refine ⟨(clear.toNeat.setLocal frees plain).congr rfl rfl rfl,
        clear.operands, ?_⟩
      exact stable.write _ (stable.keep _ clear.extra frees.apart)
        (Int32.le_refl _) present

theorem builds_compoundItems (sound : desk.Sound) {slot : Local}
    (frees : desk.Frees slot) (functor : Option FunctorId) {parts : List Built}
    (keeps : ∀ value ∈ parts, desk.KeepsBuilt value) :
    desk.Builds setting place (Built.compoundItems slot functor parts) :=
  (builds_openItems sound frees functor).append
    (.flatMap parts fun value member => builds_write sound (keeps value member))

end Desk

end LogicMachine
