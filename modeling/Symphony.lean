import Symphony.Library.Interval
import Symphony.Library.Forest
import Symphony.Library.Prefixes
import Symphony.Verif.Ownership
import Symphony.Verif.Provenance
import Symphony.Verif.Destroy
import Symphony.Verif.VmmInit
import Symphony.Verif.HeapFree
import Symphony.Verif.HeapAlign
import Symphony.Verif.HeapSize
import Symphony.Verif.PmmStart
import Symphony.Verif.MapRange
import Symphony.Verif.Exceptions
import Symphony.Verif.PrintInt
import Symphony.Spec.HeapRun
import Symphony.Verif.HeapPages
import Symphony.Verif.HeapUsable
import Symphony.Verif.Print
import Symphony.Verif.FreeExact
import Symphony.Verif.Field
import Symphony.Verif.Flags
import Symphony.Verif.Compare
import Symphony.Verif.Memmove
import Symphony.Verif.Parser
import Symphony.Library.Release
import Symphony.Spec.Teardown
import Symphony.Verif.Teardown
import Symphony.Verif.Filling
import Symphony.Verif.TableFrames
import Symphony.Verif.DestroyExact
import Symphony.Kernel.Compare
import Symphony.Spec.Compare
import Symphony.Verif.TableWrites
import Symphony.Verif.KernelState
import Symphony.Verif.KernelReady
import Symphony.Verif.KernelRun
import Symphony.Verif.KernelBoot
import Symphony.Verif.Log
import Symphony.Verif.HeapCanonical
import Symphony.Verif.TlbRun
import Symphony.Verif.Serial
import Symphony.Verif.Vectors
import Symphony.Verif.ExceptionPath
