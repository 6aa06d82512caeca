import PagedKernel.Kernel.Error
import PagedKernel.Log.Level
import PagedKernel.Sync.OnceCell

/-! The process-wide logger. There is one place for a logger, which the first
one to be installed keeps; the kernel's own logger can moreover be set up only
once. A filter of `none` lets nothing through. -/

namespace PagedKernel

inductive Sink where
  | own (filter : Option Level)
  | foreign

structure Logging where
  /-- The filter of the kernel's own logger, once it was set up. -/
  cell : OnceCell (Option Level)
  sink : Option Sink
  maxLevel : Option Level

namespace Logging

def fresh : Logging := ⟨.empty, none, none⟩

def init (filter : Option Level) (logging : Logging) : Except LoggerError Unit × Logging :=
  match logging.cell.set filter with
  | (.error _, _) => (.error .alreadyInitialized, logging)
  | (.ok (), cell) =>
    match logging.sink with
    | some _ => (.error .otherLoggerInstalled, { logging with cell })
    | none => (.ok (), ⟨cell, some (.own filter), filter⟩)

def installForeign (logging : Logging) : Bool × Logging :=
  match logging.sink with
  | some _ => (false, logging)
  | none => (true, { logging with sink := some .foreign })

def enabled (logging : Logging) (level : Level) : Bool :=
  match logging.sink with
  | some (.own (some filter)) => level.enabledBy filter
  | _ => false

def maxLevelName (logging : Logging) : String :=
  match logging.maxLevel with
  | some level => level.name
  | none => "OFF"

theorem init_again {logging : Logging} {filter : Option Level} (h : logging.cell ≠ .empty) :
    logging.init filter = (.error .alreadyInitialized, logging) := by
  rw [init, OnceCell.set_of_not_empty filter h]

end Logging
end PagedKernel
