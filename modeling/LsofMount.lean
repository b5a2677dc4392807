import LsofMount.Basic
import LsofMount.OctalEscape
import LsofMount.Supplement.Line
import LsofMount.Supplement.Hash
import LsofMount.Supplement.Getmntdev
import LsofMount.Supplement.Table
import LsofMount.Supplement.Contract
import LsofMount.Readmnt.Heap
import LsofMount.Readmnt.Loop
import LsofMount.Readmnt.Steps
import LsofMount.Readmnt.Table
import LsofMount.Readmnt.Spec
import LsofMount.Readmnt.Cache
import LsofMount.Readmnt.Chain
import LsofMount.Readmnt.Invariant
import LsofMount.Readmnt.Blocks
import LsofMount.Readmnt.Refine
import LsofMount.Readmnt.Stat
import LsofMount.Readmnt.CleanMnt
import LsofMount.Readmnt.Interface
import LsofMount.Readmnt.SupCall
import LsofMount.Print.Iproto
import LsofMount.Print.Namech
