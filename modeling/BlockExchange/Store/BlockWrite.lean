import BlockExchange.Store.Basic
import BlockExchange.Store.Directory

/-!
# Writing a block into a directory

A block is written in steps between which others may work on the same directory: see whether
something has its name, put its content together under a name of its own, then rename. So the
block's name never stands for a part of the content. A write that finds the name taken is done.
-/

namespace BlockExchange

inductive WriteStage
  | checking
  | creating
  /-- These bytes are still to be written. -/
  | writing (rest : Bytes)
  | placing
  | finished (r : Except StoreError Unit)

structure BlockWrite where
  cid : Cid
  data : Bytes
  /-- Tells this write from others of the same block. -/
  serial : UInt64
  stage : WriteStage := .checking

namespace BlockWrite

def blockName (cid : Cid) : String :=
  cid.text

/-- The name under which the content is put together. -/
def partialName (cid : Cid) (serial : UInt64) : String :=
  cid.text ++ "." ++ Hex.encode (Bytes.ofNat 8 serial.toNat) ++ ".partial"

def isTaken (root : Option Directory) (cid : Cid) : Bool :=
  root.any (·.exists? (blockName cid))

/-- The write with its next stage and the directory after this step. -/
def became (w : BlockWrite) (stage : WriteStage) (root : Option Directory) :
    BlockWrite × Option Directory :=
  ({ w with stage }, root)

/-- One step, which writes at most `n` bytes. The directory may be gone. -/
def step (w : BlockWrite) (n : Nat) (root : Option Directory) : BlockWrite × Option Directory :=
  let own := partialName w.cid w.serial
  let failed := w.became (.finished (.error (.writeFailed w.cid))) root
  match w.stage with
  | .checking =>
    if isTaken root w.cid then w.became (.finished (.ok ())) root else w.became .creating root
  | .creating =>
    match root.bind (·.writeFile own []) with
    | some d => w.became (.writing w.data) d
    | none => failed
  | .writing rest =>
    match root.bind (·.appendFile own (rest.take n)) with
    | some d =>
      w.became (if (rest.drop n).isEmpty then .placing else .writing (rest.drop n)) d
    | none => failed
  | .placing =>
    match root.bind (·.rename own (blockName w.cid)) with
    | some d => w.became (.finished (.ok ())) d
    | none =>
      let root := root.map fun d => (d.removeFile own).getD d
      if isTaken root w.cid then w.became (.finished (.ok ())) root
      else w.became (.finished (.error (.placeFailed w.cid))) root
  | .finished _ => (w, root)

/-- A write that nobody disturbs: its bytes go in one piece, so that four steps finish it. -/
def complete (w : BlockWrite) (root : Option Directory) : BlockWrite × Option Directory :=
  let (w, root) := w.step w.data.length root
  let (w, root) := w.step w.data.length root
  let (w, root) := w.step w.data.length root
  w.step w.data.length root

def result (w : BlockWrite) : Except StoreError Unit :=
  match w.stage with
  | .finished r => r
  | _ => .error (.writeFailed w.cid)

/-- The first number from `serial` on whose name is free, looking at `tries` numbers. -/
def freeSerial (d : Directory) (cid : Cid) : (tries : Nat) → (serial : UInt64) → UInt64
  | 0, serial => serial
  | tries + 1, serial =>
    if d.exists? (partialName cid serial) then freeSerial d cid tries (serial + 1) else serial

end BlockWrite
end BlockExchange
