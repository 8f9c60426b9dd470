import FastNet.GetPage.Reassembly
import FastNet.GetPage.EndToEnd
import FastNet.GetPage.Fragments
import FastNet.Simple.ClientReturn
import FastNet.Simple.Productive
import FastNet.Simple.Window
import FastNet.Simple.ServerStream
import FastNet.Simple.Volume
import FastNet.Simple.Requests
import FastNet.Simple.Slots
import FastNet.Simple.PoolRuns
import FastNet.Simple.PoolCalls
import FastNet.GetPage.Slices
import FastNet.GetPage.Survival
import FastNet.Max.Accounting
import FastNet.GetPage.Threads
import FastNet.GetPage.Verifier
import FastNet.GetPage.Judgement
import FastNet.GetPage.Resolution
import FastNet.Simple.PoolSteady
import FastNet.Simple.Completion
import FastNet.GetPage.ServerIouRefinement
import FastNet.GetPage.ClientIouRefinement
import FastNet.GetPage.IouSystem
import FastNet.GetPage.OneAtATime
import FastNet.GetPage.IouPairSystem
import FastNet.Max.Buffers
