import Nlos.Lib.Runs
import Nlos.Lib.Spans

/-!
# The heap of a Lua state

`src/luaheap.c`. Small blocks are cut from chunks and have no header: the caller says how big a
block was, and the class of that size is the class it came from. A large block has a mapping of its
own, with a header in front. Freed small blocks go to the free list of their class, freed large ones
to a cache, a few for each size.

Free lists and the lists of chunks and larges are lists here; in the source they run through the
blocks and the headers. What that costs is kept: each place where the source stores a link or a
header field is a `poke`, which overwrites those bytes with whatever `junk` says. What it leaves out
is a write that goes into a link or a header from elsewhere. There is none as long as every request
fits (`Heap.sweep_exact`), and where one does not the headers are read from memory (`Heap.reread`).
`size_t` wraps.

The chunk source is outside. An operation is given what the source answers to its requests, one
after the other; an answer that is not free memory is taken as a refusal.
-/

namespace Nlos.Luaheap

open Function

/-! ## The target -/

/-- What the build fixes: the size of a pointer and of `size_t`, `LUAHEAP_CHUNK` and
`LUAHEAP_LARGE_CACHED`. -/
structure Target where
  word : Nat
  chunk : Nat
  cached : Nat
  word_eq : word = 4 ∨ word = 8
  chunk_dvd : 8 ∣ chunk
  chunk_le : 128 ≤ chunk
deriving Repr

namespace Target

variable (T : Target)

def sizes : Nat := 2 ^ (8 * T.word)

def chunkHdr : Nat := 4 * T.word

def largeHdr : Nat := 2 * T.word

def chunkBytes : Nat := T.chunk - 128

def roundup (n a : Nat) : Nat := (n + a - 1) % T.sizes / a * a

end Target

def align : Nat := 8

def classes : List Nat := [16, 24, 32, 40, 48, 56, 64, 80, 96, 128, 192, 256, 384, 512]

def nclass : Nat := 14

def classSize (ci : Nat) : Nat := classes.getD ci 0

def classof (n : Nat) : Nat := classes.findIdx (n ≤ ·)

def largeGrain : Nat := 512

def largeMaxsize : Nat := 64 * 1024

def nlargeclass : Nat := 128

def largeclassof (want : Nat) : Nat :=
  if want = 0 ∨ largeMaxsize < want ∨ want % largeGrain ≠ 0 then nlargeclass
    else want / largeGrain - 1

def Target.largeWant (T : Target) (need : Nat) : Nat :=
  if largeMaxsize < need then T.roundup need align else T.roundup need largeGrain

/-! ## The heap -/

structure Chunk where
  base : Nat
  size : Nat
  lost : Nat
deriving DecidableEq, Repr

structure Large where
  base : Nat
  size : Nat
deriving DecidableEq, Repr

/-- A block that a caller has: its address, and the size last given for it. -/
structure Block where
  ptr : Nat
  size : Nat
deriving DecidableEq, Repr

def Block.bytes (b : Block) : Span := ⟨b.ptr, b.size⟩

/-- `struct luaheap`, in the mapping `self`, and the memory. `src` is what the chunk source will
say, `junk` what is left behind in the heap's own bytes, `live` the blocks that callers have. -/
structure Heap where
  self : Span
  chunks : List Chunk
  larges : List Large
  bump : Nat
  bumpleft : Nat
  freelist : Nat → List Nat
  largefree : Nat → List Nat
  nlargefree : Nat → Nat
  mem : Nat → UInt8
  src : List (Option Nat)
  junk : Nat → UInt8
  live : List Block

variable (T : Target)

def Chunk.span (c : Chunk) : Span := ⟨c.base, c.size⟩

def Chunk.payload (c : Chunk) : Span := ⟨c.base + T.chunkHdr, c.size - T.chunkHdr⟩

def Chunk.holds (c : Chunk) (b : Nat) : Bool := c.base + T.chunkHdr ≤ b && b < c.base + c.size

def Large.span (l : Large) : Span := ⟨l.base, l.size⟩

def Large.ptr (l : Large) : Nat := l.base + T.largeHdr

namespace Heap

def new (self : Span) (mem : Nat → UInt8) : Heap where
  self := self
  chunks := []
  larges := []
  bump := 0
  bumpleft := 0
  freelist := fun _ => []
  largefree := fun _ => []
  nlargefree := fun _ => 0
  mem := mem
  src := []
  junk := fun _ => 0
  live := []

def regions (s : Heap) : List Span := s.self :: s.chunks.map Chunk.span ++ s.larges.map Large.span

/-- Bytes of the heap's own are written. -/
def poke (s : Heap) (a : Span) : Heap :=
  { s with mem := fun x => if x ∈ a then s.junk x else s.mem x }

/-- Is this memory that the chunk source can give? -/
def Vacant (s : Heap) (a : Span) : Prop :=
  a.start ≠ 0 ∧ align ∣ a.start ∧ a.start + a.len ≤ T.sizes ∧ ∀ r ∈ s.regions, r.Apart a

instance (s : Heap) (a : Span) : Decidable (s.Vacant T a) :=
  inferInstanceAs (Decidable (_ ∧ _ ∧ _ ∧ _))

def chunkAlloc (s : Heap) (n : Nat) : Option Nat × Heap :=
  match s.src with
  | [] => (none, s)
  | a :: src =>
    match a with
    | none => (none, { s with src := src })
    | some a => (if s.Vacant T ⟨a, n⟩ then some a else none, { s with src := src })

/-! ## Small blocks -/

/-- A block is put on the free list of a class. -/
def push (s : Heap) (p ci : Nat) : Heap :=
  { s.poke ⟨p, T.word⟩ with freelist := update s.freelist ci (p :: s.freelist ci) }

/-- The class to cut next: the largest up to `ci` that fits. -/
def fitClass (left : Nat) : Nat → Nat
  | 0 => 0
  | ci + 1 => if left < classSize ci then fitClass left ci else ci + 1

/-- The loop of `drain_bump`, for at most so many rounds. -/
def drainLoop : Nat → Nat → Heap → Heap
  | 0, _, s => s
  | fuel + 1, ci, s =>
    if s.bumpleft < classSize 0 then s
    else
      match fitClass s.bumpleft ci with
      | 0 => s
      | ci + 1 =>
        drainLoop fuel (ci + 1)
          { s.push T s.bump ci with bump := s.bump + classSize ci, bumpleft := s.bumpleft - classSize ci }

/-- The tail that could not be cut is charged to the chunk. -/
def charge (s : Heap) : Heap :=
  match s.chunks with
  | [] => { s with bumpleft := 0 }
  | c :: chunks =>
    { s.poke ⟨c.base, T.chunkHdr⟩ with chunks := { c with lost := c.lost + s.bumpleft } :: chunks, bumpleft := 0 }

def drainBump (s : Heap) : Heap := (s.drainLoop T s.bumpleft nclass).charge T

def frees (s : Heap) : List (Nat × Nat) :=
  (List.range nclass).flatMap fun ci => (s.freelist ci).map (·, ci)

/-- What a sweep counts as free in a chunk: a block counts for the first chunk that holds it. -/
def freebytes (s : Heap) (c : Chunk) : Nat :=
  ((s.frees.filter fun b => s.chunks.find? (·.holds T b.1) = some c).map fun b => classSize b.2).sum

/-- The chunk the bump pointer is in, which a sweep skips. -/
def current (s : Heap) : Option Chunk := if s.bumpleft = 0 then none else s.chunks.head?

def unused (s : Heap) (c : Chunk) : Bool :=
  s.current ≠ some c && s.freebytes T c + c.lost = c.size - T.chunkHdr

/-- `release_freechunks`, with the bytes it gave back. The sums and links that it rewrites are in
the headers and in the free blocks. -/
def releaseFreechunks (s : Heap) : Nat × Heap :=
  let dead := s.chunks.filter (s.unused T)
  let s1 := s.chunks.foldl (fun s c => s.poke ⟨c.base, T.chunkHdr⟩) s
  let s2 := s.frees.foldl (fun s b => s.poke ⟨b.1, T.word⟩) s1
  ((dead.map (·.size)).sum,
   { s2 with
     chunks := s.chunks.filter fun c => !s.unused T c
     freelist := fun ci => (s.freelist ci).filter fun b => dead.all fun c => !c.holds T b })

def cachedLarges (s : Heap) : List Nat := (List.range nlargeclass).flatMap s.largefree

/-- `release_largefree`, with the bytes it gave back. The links that it rewrites are in the headers.
-/
def releaseLargefree (s : Heap) : Nat × Heap :=
  let s1 := s.larges.foldl (fun s l => s.poke ⟨l.base, T.largeHdr⟩) s
  (((s.larges.filter fun l => l.ptr T ∈ s.cachedLarges).map (·.size)).sum,
   { s1 with
     larges := s.larges.filter fun l => l.ptr T ∉ s.cachedLarges
     largefree := fun ci => if ci < nlargeclass then [] else s.largefree ci
     nlargefree := fun ci => if ci < nlargeclass then s.nlargefree ci - (s.largefree ci).length
       else s.nlargefree ci })

/-- Ask the chunk source once more, where something could be given back. -/
def again (r : Option Nat × Heap) (release : Heap → Nat × Heap) (want : Nat) : Option Nat × Heap :=
  match r with
  | (some a, s) => (some a, s)
  | (none, s) =>
    match release s with
    | (0, s) => (none, s)
    | (_ + 1, s) => s.chunkAlloc T want

def chunkWant (need : Nat) : Nat :=
  if T.chunkBytes < need + T.chunkHdr then T.roundup (need + T.chunkHdr) align else T.chunkBytes

def addChunk (s : Heap) (a want : Nat) : Heap :=
  { s.poke ⟨a, T.chunkHdr⟩ with
    chunks := ⟨a, want, 0⟩ :: s.chunks
    bump := a + T.chunkHdr
    bumpleft := want - T.chunkHdr }

def newchunk (s : Heap) (need : Nat) : Bool × Heap :=
  let want := chunkWant T need
  match again T (again T (s.chunkAlloc T want) (releaseLargefree T) want)
    (releaseFreechunks T) want with
  | (none, s) => (false, s)
  | (some a, s) => (true, ((s.poke ⟨a, T.chunkHdr⟩).drainBump T).addChunk T a want)

def own (s : Heap) (p n : Nat) : Heap := { s with live := ⟨p, n⟩ :: s.live }

/-- A caller gives a block back. -/
def disown (s : Heap) (p n : Nat) : Heap := { s with live := s.live.erase ⟨p, n⟩ }

def cut (s : Heap) (ci n : Nat) : Option Nat × Heap :=
  (some s.bump,
   { s with bump := s.bump + classSize ci, bumpleft := s.bumpleft - classSize ci }.own s.bump n)

/-- `small_alloc`, for a request of `n` bytes of the class. -/
def smallAlloc (s : Heap) (ci n : Nat) : Option Nat × Heap :=
  match s.freelist ci with
  | p :: rest => (some p, { s with freelist := update s.freelist ci rest }.own p n)
  | [] =>
    if s.bumpleft < classSize ci then
      match s.newchunk T (classSize ci) with
      | (false, s) => (none, s)
      | (true, s) => s.cut ci n
    else s.cut ci n

def smallFree (s : Heap) (p osize : Nat) : Heap := (s.disown p osize).push T p (classof osize)

/-! ## Large blocks -/

def largeAt (s : Heap) (p : Nat) : Large := (s.larges.find? (·.ptr T = p)).getD ⟨p - T.largeHdr, 0⟩

def largeAlloc (s : Heap) (n : Nat) : Option Nat × Heap :=
  let want := T.largeWant ((n + T.largeHdr) % T.sizes)
  let ci := largeclassof want
  match if ci < nlargeclass then s.largefree ci else [] with
  | p :: rest =>
    (some p,
     { s with
       largefree := update s.largefree ci rest
       nlargefree := update s.nlargefree ci (s.nlargefree ci - 1) }.own p n)
  | [] =>
    match again T (s.chunkAlloc T want) (releaseLargefree T) want with
    | (none, s) => (none, s)
    | (some a, s) =>
      (some (a + T.largeHdr),
       { s.poke ⟨a, T.largeHdr⟩ with larges := ⟨a, want⟩ :: s.larges }.own (a + T.largeHdr) n)

def largeFree (s : Heap) (p osize : Nat) : Heap :=
  let ci := largeclassof (s.largeAt T p).size
  if ci < nlargeclass ∧ s.nlargefree ci < T.cached then
    { (s.disown p osize).poke ⟨p, T.word⟩ with
      largefree := update s.largefree ci (p :: s.largefree ci)
      nlargefree := update s.nlargefree ci (s.nlargefree ci + 1) }
  else
    { s.larges.foldl (fun s l => s.poke ⟨l.base, T.largeHdr⟩) (s.disown p osize) with
      larges := s.larges.filter fun l => l.ptr T ≠ p }

/-! ## The entry points -/

def alloc (s : Heap) (n : Nat) : Option Nat × Heap :=
  if classof n < nclass then s.smallAlloc T (classof n) n else s.largeAlloc T n

def free (s : Heap) (p osize : Nat) : Heap :=
  if classof osize < nclass then s.smallFree T p osize else s.largeFree T p osize

/-- The size of a block changes, and it stays where it is. -/
def resize (s : Heap) (p osize nsize : Nat) : Heap := (s.disown p osize).own p nsize

def memcpy (s : Heap) (q p n : Nat) : Heap :=
  { s with mem := fun x => if x ∈ Span.mk q n then s.mem (p + (x - q)) else s.mem x }

/-- `realloc_locked`, with what it returns. No pointer is null. -/
def reallocLocked (s : Heap) (p osize nsize : Nat) : Option Nat × Heap :=
  if nsize = 0 then (none, if p = 0 then s else s.free T p osize)
  else if p = 0 then s.alloc T nsize
  else if classof osize = classof nsize ∧ classof osize < nclass
    then (some p, s.resize p osize nsize)
  else if nclass ≤ classof osize ∧ nclass ≤ classof nsize ∧
      T.largeWant ((nsize + T.largeHdr) % T.sizes) = (s.largeAt T p).size then
    (some p, s.resize p osize nsize)
  else
    match s.alloc T nsize with
    | (none, s) => (none, s)
    | (some q, s) => (some q, (s.memcpy q p (min osize nsize)).free T p osize)

def releaseLocked (s : Heap) : Heap := ((s.releaseLargefree T).2.releaseFreechunks T).2

end Heap

/-! ## Steps -/

inductive Op where
  /-- `luaheap_realloc`, with the answers of the chunk source. -/
  | realloc (p osize nsize : Nat) (src : List (Option Nat)) (junk : Nat → UInt8)
  /-- `luaheap_reclaim`. -/
  | reclaim (junk : Nat → UInt8)
  /-- `luaheap_release`. -/
  | release (junk : Nat → UInt8)
  /-- A caller writes to its block. -/
  | write (b : Block) (i : Nat) (v : UInt8)
  /-- Memory that the heap does not hold changes. -/
  | outside (x : Nat) (v : UInt8)

namespace Heap

def Legal (s : Heap) : Op → Prop
  | .realloc p osize nsize _ _ => nsize < T.sizes ∧ (p = 0 ∧ osize = 0 ∨ ⟨p, osize⟩ ∈ s.live)
  | .reclaim _ | .release _ => True
  | .write b i _ => b ∈ s.live ∧ i < b.size
  | .outside x _ => ∀ r ∈ s.regions, x ∉ r

instance (s : Heap) (a : Op) : Decidable (s.Legal T a) :=
  match a with
  | .realloc _ _ _ _ _ => inferInstanceAs (Decidable (_ ∧ _))
  | .reclaim _ | .release _ => isTrue trivial
  | .write _ _ _ => inferInstanceAs (Decidable (_ ∧ _))
  | .outside _ _ => inferInstanceAs (Decidable (∀ r ∈ _, _))

def step (s : Heap) : Op → Heap
  | .realloc p osize nsize src junk =>
    ({ s with src := src, junk := junk }.reallocLocked T p osize nsize).2
  | .reclaim junk => ({ s with junk := junk }.releaseFreechunks T).2
  | .release junk => { s with junk := junk }.releaseLocked T
  | .write b i v => { s with mem := update s.mem (b.ptr + i) v }
  | .outside x v => { s with mem := update s.mem x v }

def Fresh (s : Heap) : Prop := ∃ self mem, self.start ≠ 0 ∧ s = new self mem

end Heap

end Nlos.Luaheap
